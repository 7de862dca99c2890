/-
Malformed templates (`State::new` and `serialize_header` of `src/pow.rs`).

A missing header is an error, but every hexadecimal field is unwrapped: a template with a
malformed field ends the thread.

* `Outcome.ReturnsIff` — a computation that returns or panics, and its rules;
* `decodeToSlice_ok_iff` — the texts that are decoded;
* `serializeHeader_returns` — a header is serialised when it is well formed;
* `new_handles_iff` — the templates for which `State::new` keeps its contract.
-/
import VelkarMiner.HeaderCode
import VelkarMiner.MatrixDraws

open Rust

/-! ### Computations that return or panic -/

namespace Rust.Outcome

variable {ε α β : Type} {P Q : Prop}

/-- The computation returns when `P` holds, and panics otherwise. -/
def ReturnsIff (x : Outcome ε α) (P : Prop) : Prop :=
  (P → ∃ a, x = ok a) ∧ (¬ P → x = panic)

theorem ReturnsIff.congr {x : Outcome ε α} (h : x.ReturnsIff P) (hPQ : P ↔ Q) : x.ReturnsIff Q := by
  rwa [← propext hPQ]

theorem returnsIff_ok (a : α) : (ok a : Outcome ε α).ReturnsIff True :=
  ⟨fun _ => ⟨a, rfl⟩, fun h => absurd trivial h⟩

theorem returnsIff_expect (o : Option α) : (expect o : Outcome ε α).ReturnsIff o.isSome := by
  cases o with
  | none => exact ⟨fun h => absurd h (by simp), fun _ => rfl⟩
  | some a => exact ⟨fun _ => ⟨a, rfl⟩, fun h => absurd rfl h⟩

theorem returnsIff_unwrap {δ : Type} (r : Except δ α) :
    (unwrap r : Outcome ε α).ReturnsIff (∃ a, r = .ok a) := by
  cases r with
  | error e => exact ⟨fun h => absurd h (by simp), fun _ => rfl⟩
  | ok a => exact ⟨fun _ => ⟨a, rfl⟩, fun h => absurd ⟨a, rfl⟩ h⟩

theorem ReturnsIff.bind {x : Outcome ε α} {f : α → Outcome ε β} (hx : x.ReturnsIff P)
    (hf : ∀ a, (f a).ReturnsIff Q) : (x >>= f).ReturnsIff (P ∧ Q) := by
  constructor
  · rintro ⟨hP, hQ⟩
    obtain ⟨a, rfl⟩ := hx.1 hP
    rw [ok_bind]
    exact (hf a).1 hQ
  · intro hnot
    by_cases hP : P
    · obtain ⟨a, rfl⟩ := hx.1 hP
      rw [ok_bind]
      exact (hf a).2 fun hQ => hnot ⟨hP, hQ⟩
    · rw [hx.2 hP]
      rfl

/-- A loop returns when its body does for every element. -/
theorem returnsIff_foldlM {f : β → α → Outcome ε β} {P : α → Prop}
    (hf : ∀ b a, (f b a).ReturnsIff (P a)) (as : List α) (b : β) :
    (as.foldlM f b).ReturnsIff (∀ a ∈ as, P a) := by
  induction as generalizing b with
  | nil => exact (returnsIff_ok b).congr (by simp)
  | cons a as ih =>
    rw [List.foldlM_cons]
    exact ((hf b a).bind fun b' => ih b').congr (by simp)

end Rust.Outcome

/-! ### Hexadecimal fields -/

theorem mapM_ok {ε α β : Type} {f : α → Except ε β} {as : List α}
    (h : ∀ a ∈ as, ∃ b, f a = .ok b) : ∃ bs, as.mapM f = .ok bs := by
  induction as with
  | nil => exact ⟨[], rfl⟩
  | cons a as ih =>
    obtain ⟨b, hb⟩ := h a List.mem_cons_self
    obtain ⟨bs, hbs⟩ := ih fun x hx => h x (List.mem_cons_of_mem a hx)
    refine ⟨b :: bs, ?_⟩
    rw [List.mapM_cons, hb, hbs]
    rfl

theorem length_asBytes {s : Str} (h : AllDigits 16 s) : (asBytes s).length = s.length := by
  rw [asBytes_of_allDigits h, List.length_map]

/-- A hexadecimal digit has a value. -/
theorem hexVal_of_digit {c : Char} (h : (toDigit 16 c).isSome) (idx : ℕ) :
    ∃ v, hexVal (BitVec.ofNat 8 c.toNat) idx = .ok v := by
  have hsmall : c.toNat < 128 := by
    by_contra hbig
    rw [toDigit, if_neg (by omega), if_neg (by omega), if_neg (by omega)] at h
    cases h
  have hopt := toOption_hexVal (BitVec.ofNat 8 c.toNat) idx
  rw [BitVec.toNat_ofNat, Nat.mod_eq_of_lt (by omega), Char.ofNat_toNat] at hopt
  obtain ⟨d, hd⟩ := Option.isSome_iff_exists.mp h
  rw [hd] at hopt
  cases hval : hexVal (BitVec.ofNat 8 c.toNat) idx with
  | error e => rw [hval] at hopt; cases hopt
  | ok v => exact ⟨v, rfl⟩

/-- What is decoded into `n` bytes is `2 * n` hexadecimal digits. -/
theorem decodeToSlice_ok_iff (s : Str) (n : ℕ) :
    (∃ bytes, decodeToSlice (asBytes s) n = .ok bytes) ↔ AllDigits 16 s ∧ s.length = 2 * n := by
  constructor
  · rintro ⟨bytes, h⟩
    obtain ⟨-, hlen, hchars⟩ := decodeToSlice_chars h
    refine ⟨fun c hc => ?_, hlen⟩
    obtain ⟨j, hj, rfl⟩ := List.getElem_of_mem hc
    obtain ⟨heven, hodd⟩ := hchars (j / 2) (by omega)
    have hdigit : ∃ d < 16, (s[j]).toLower = hexDigit d := by
      obtain hpar | hpar := Nat.mod_two_eq_zero_or_one j
      · rw [show 2 * (j / 2) = j by omega, List.getD_eq_getElem _ _ hj] at heven
        exact ⟨_, by have := (bytes.getD (j / 2) 0).isLt; omega, heven⟩
      · rw [show 2 * (j / 2) + 1 = j by omega, List.getD_eq_getElem _ _ hj] at hodd
        exact ⟨_, Nat.mod_lt _ (by norm_num), hodd⟩
    obtain ⟨d, hd, hlower⟩ := hdigit
    rw [← toDigit_toLower, hlower, toDigit_hexDigit hd]
    rfl
  · rintro ⟨hdigits, hlen⟩
    have hbytes := length_asBytes hdigits
    have hget : ∀ j < s.length, ∀ idx, ∃ v, hexVal ((asBytes s).getD j 0) idx = .ok v := by
      intro j hj idx
      rw [List.getD_eq_getElem _ _ (by omega)]
      simp only [asBytes_of_allDigits hdigits, List.getElem_map]
      exact hexVal_of_digit (hdigits _ (List.getElem_mem hj)) idx
    rw [decodeToSlice, if_neg (by omega), if_neg (by omega)]
    refine mapM_ok fun i hi => ?_
    have hlt := List.mem_range.mp hi
    obtain ⟨high, hhigh⟩ := hget (2 * i) (by omega) (2 * i)
    obtain ⟨low, hlow⟩ := hget (2 * i + 1) (by omega) (2 * i + 1)
    refine ⟨high <<< 4 ||| low, ?_⟩
    rw [hhigh, hlow]
    rfl

/-! ### Well-formed headers -/

/-- The text of a hash: 64 hexadecimal digits. -/
def IsHashText (s : Str) : Prop := AllDigits 16 s ∧ s.length = 64

structure RpcBlockHeader.WellFormed (header : RpcBlockHeader) : Prop where
  version : header.version.toNat ≤ 65535
  parents : ∀ parent ∈ header.parents, ∀ hash ∈ parent.parentHashes, IsHashText hash
  hashMerkleRoot : IsHashText header.hashMerkleRoot
  acceptedIdMerkleRoot : IsHashText header.acceptedIdMerkleRoot
  utxoCommitment : IsHashText header.utxoCommitment
  blueWork : AllDigits 16 header.blueWork ∧ header.blueWork.length ≤ 64
  pruningPoint : IsHashText header.pruningPoint

theorem writeHash_returns (hasher : HeaderHasher) (field : Str) :
    (writeHash hasher field).ReturnsIff (IsHashText field) := by
  refine ((Outcome.returnsIff_unwrap _).bind fun hash => Outcome.returnsIff_ok _).congr ?_
  rw [decodeToSlice_ok_iff, and_true]
  rfl

theorem writeParents_returns (hasher : HeaderHasher) (parent : RpcBlockLevelParents) :
    (writeParents hasher parent).ReturnsIff (∀ hash ∈ parent.parentHashes, IsHashText hash) :=
  Outcome.returnsIff_foldlM writeHash_returns parent.parentHashes _

/-- An odd number of digits is padded. -/
theorem blueWork_digits_iff {blueWork : Str} {n : ℕ}
    (hn : n = ((asBytes blueWork).length + 1) / 2) :
    (∃ bytes, decodeToSlice (if (asBytes blueWork).length % 2 = 0 then asBytes blueWork
        else asBytes ('0' :: blueWork)) n = .ok bytes) ↔ AllDigits 16 blueWork := by
  have hzero : (toDigit 16 '0').isSome := by decide
  split
  case isTrue heven =>
    rw [decodeToSlice_ok_iff]
    refine and_iff_left_of_imp fun hdigits => ?_
    rw [length_asBytes hdigits] at heven hn
    omega
  case isFalse hodd =>
    rw [decodeToSlice_ok_iff]
    constructor
    · rintro ⟨hdigits, -⟩
      exact fun c hc => hdigits c (List.mem_cons_of_mem _ hc)
    · intro hdigits
      refine ⟨List.forall_mem_cons.mpr ⟨hzero, hdigits⟩, ?_⟩
      rw [length_asBytes hdigits] at hodd hn
      rw [List.length_cons]
      omega

theorem writeBlueWork_returns (hasher : HeaderHasher) (blueWork : Str) :
    (writeBlueWork hasher blueWork).ReturnsIff
      (AllDigits 16 blueWork ∧ blueWork.length ≤ 64) := by
  rw [writeBlueWork]
  by_cases hle : ((asBytes blueWork).length + 1) / 2 ≤ 32
  · simp only [if_pos hle]
    refine ((Outcome.returnsIff_unwrap _).bind fun hash => Outcome.returnsIff_ok _).congr ?_
    rw [blueWork_digits_iff rfl, and_true]
    refine (and_iff_left_of_imp fun hdigits => ?_).symm
    rw [length_asBytes hdigits] at hle
    omega
  · simp only [if_neg hle]
    constructor
    · rintro ⟨hdigits, hlen⟩
      rw [length_asBytes hdigits] at hle
      omega
    · intro _
      rfl

theorem tryIntoU16_isSome (x : U32) : (tryIntoU16 x).isSome ↔ x.toNat ≤ 65535 := by
  rw [tryIntoU16]
  split
  case isTrue h => exact iff_of_true rfl (by omega)
  case isFalse h => exact iff_of_false (by simp) (by omega)

/-- A header is serialised when it is well formed; otherwise an `unwrap` panics. -/
theorem serializeHeader_returns (hasher : HeaderHasher) (header : RpcBlockHeader)
    (forPrePow : Bool) :
    (serializeHeader hasher header forPrePow).ReturnsIff header.WellFormed := by
  rw [serializeHeader]
  refine ((Outcome.returnsIff_expect _).bind fun version =>
    (Outcome.returnsIff_foldlM writeParents_returns _ _).bind fun hasher =>
    (writeHash_returns _ _).bind fun hasher => (writeHash_returns _ _).bind fun hasher =>
    (writeHash_returns _ _).bind fun hasher => (writeBlueWork_returns _ _).bind fun hasher =>
    writeHash_returns _ _).congr ?_
  rw [tryIntoU16_isSome]
  constructor
  · rintro ⟨hversion, hparents, hroot, haccepted, hutxo, hwork, hpruning⟩
    exact ⟨hversion, hparents, hroot, haccepted, hutxo, hwork, hpruning⟩
  · rintro ⟨hversion, hparents, hroot, haccepted, hutxo, hwork, hpruning⟩
    exact ⟨hversion, hparents, hroot, haccepted, hutxo, hwork, hpruning⟩

/-! ### New states -/

namespace State

variable {c : Crates} {computeRank : Matrix64 → ℕ} {id : U64} {block : RpcBlock}
  {header : RpcBlockHeader}

theorem headerHash_returns (c : Crates) (header : RpcBlockHeader) :
    (headerHash c header).ReturnsIff header.WellFormed :=
  ((serializeHeader_returns _ header true).bind fun _ => Outcome.returnsIff_ok _).congr
    (and_iff_left trivial)

/-- `State::new` returns, does not panic, and makes a state of the well-formed templates. -/
structure NewHandles (c : Crates) (computeRank : Matrix64 → ℕ) (id : U64) (block : RpcBlock) :
    Prop where
  returns : (new c computeRank id block).Dom
  no_panic : Outcome.panic ∉ new c computeRank id block
  ok_iff : (∃ s, Outcome.ok s ∈ new c computeRank id block)
    ↔ ∃ header, block.header = some header ∧ header.WellFormed

theorem new_of_no_header (c : Crates) (computeRank : Matrix64 → ℕ) (id : U64)
    (h : block.header = none) :
    new c computeRank id block = Part.some (.err (.message "Header is missing".toList)) := by
  unfold new
  split
  case h_1 => rfl
  case h_2 header hheader => simp [h] at hheader

theorem new_of_malformed (c : Crates) (computeRank : Matrix64 → ℕ) (id : U64)
    (hheader : block.header = some header) (h : ¬ header.WellFormed) :
    new c computeRank id block = Part.some .panic := by
  unfold new
  split
  case h_1 hnone => simp [hnone] at hheader
  case h_2 header' hheader' =>
    obtain rfl : header' = header := Option.some.inj (hheader'.symm.trans hheader)
    simp only [(headerHash_returns c header').2 h]

/-- A well-formed template makes a state once its matrix has been generated. -/
theorem new_of_wellFormed (computeRank : Matrix64 → ℕ) (id : U64)
    (hheader : block.header = some header) {prePowHash : Hash}
    (hhash : headerHash c header = .ok prePowHash) :
    ∃ f : State → Outcome Error State, (∀ s, ∃ t, f s = .ok t)
      ∧ ∃ make : NibbleMatrix → State,
        new c computeRank id block
          = ((Matrix64.generate computeRank prePowHash).map make).map f := by
  unfold new
  split
  case h_1 hnone => simp [hnone] at hheader
  case h_2 header' hheader' =>
    obtain rfl : header' = header := Option.some.inj (hheader'.symm.trans hheader)
    simp only [hhash]
    exact ⟨.ok, fun s => ⟨s, rfl⟩, _, rfl⟩

/-- The templates for which `State::new` does so: those without a header, and the well-formed
ones whose pre-PoW hash is not zero. -/
theorem new_handles_iff (c : Crates) (computeRank : Matrix64 → ℕ) (id : U64) (block : RpcBlock)
    (hzero : computeRank Matrix64.zero = 0) :
    NewHandles c computeRank id block
      ↔ block.header = none ∨ ∃ header, block.header = some header ∧ header.WellFormed
        ∧ headerHash c header ≠ .ok ⟨Vector.replicate 4 0⟩
        ∧ ∃ hash', computeRank (Matrix64.draw hash' 0) = 64 := by
  cases hheader : block.header with
  -- without a header `State::new` answers at once
  | none =>
    have hnew := new_of_no_header c computeRank id hheader
    refine iff_of_true ⟨?_, ?_, ?_⟩ (Or.inl rfl)
    · rw [hnew]
      trivial
    · rw [hnew]
      simp
    · rw [hnew]
      simp [hheader]
  | some header =>
    have hsame : ∀ header', some header = some header' ↔ header = header' :=
      fun _ => Option.some_inj
    simp only [reduceCtorEq, false_or, hsame, exists_eq_left']
    by_cases hwell : header.WellFormed
    case neg =>
      -- a malformed header panics before the matrix is drawn
      refine iff_of_false (fun h => h.no_panic ?_) (fun h => hwell h.1)
      rw [new_of_malformed c computeRank id hheader hwell]
      exact Part.mem_some _
    obtain ⟨prePowHash, hhash⟩ := (headerHash_returns c header).1 hwell
    obtain ⟨f, hf, make, hnew⟩ := new_of_wellFormed computeRank id hheader hhash
    have hdom : (new c computeRank id block).Dom
        ↔ (Matrix64.generate computeRank prePowHash).Dom := by
      rw [hnew]
      exact Iff.rfl
    -- what is left of the condition says that the rejection loop of the matrix ends
    have hcond : header.WellFormed ∧ headerHash c header ≠ .ok ⟨Vector.replicate 4 0⟩
        ∧ (∃ hash', computeRank (Matrix64.draw hash' 0) = 64)
          ↔ (Matrix64.generate computeRank prePowHash).Dom := by
      rw [Matrix64.generate_dom, Matrix64.exists_full_rank_iff hzero, and_iff_right hwell, hhash,
        Ne, Outcome.ok.injEq]
    rw [hcond, ← hdom]
    refine ⟨fun h => h.returns, fun h => ⟨h, ?_, ?_⟩⟩
    · rw [hnew, Part.mem_map_iff]
      rintro ⟨s, -, hpanic⟩
      obtain ⟨t, ht⟩ := hf s
      rw [hpanic] at ht
      cases ht
    · refine iff_of_true ?_ ⟨header, hheader, hwell⟩
      obtain ⟨r, hr⟩ := Part.dom_iff_mem.mp h
      have hmem := hr
      rw [hnew, Part.mem_map_iff] at hmem
      obtain ⟨s, -, rfl⟩ := hmem
      obtain ⟨t, ht⟩ := hf s
      exact ⟨t, ht ▸ hr⟩

theorem sampleHeader_wellFormed : sampleHeader.WellFormed where
  version := by decide
  parents := by simp [sampleHeader]
  hashMerkleRoot := ⟨by decide, rfl⟩
  acceptedIdMerkleRoot := ⟨by decide, rfl⟩
  utxoCommitment := ⟨by decide, rfl⟩
  blueWork := ⟨by decide, by decide⟩
  pruningPoint := ⟨by decide, rfl⟩

/-- The sample template makes a state. -/
theorem sample_handled : NewHandles sampleCrates Matrix64.sampleRank 0 (sampleBlock 0) :=
  (new_handles_iff sampleCrates Matrix64.sampleRank 0 (sampleBlock 0) rfl).mpr
    (Or.inr ⟨sampleHeader, rfl, sampleHeader_wellFormed, by
      rw [show sampleHeader = { sampleHeader with nonce := 0 } from rfl, headerHash_sample]
      decide, Matrix64.testSeed, by decide +kernel⟩)

/-- A template whose merkle root is missing, which on the wire is an empty text. -/
def rootlessBlock : RpcBlock :=
  ⟨some { sampleHeader with hashMerkleRoot := [] }, [], none⟩

theorem rootless_template_panics :
    ¬ ∀ (c : Crates) (computeRank : Matrix64 → ℕ) (id : U64) (block : RpcBlock),
      computeRank Matrix64.zero = 0 → NewHandles c computeRank id block := by
  intro h
  refine (h sampleCrates Matrix64.sampleRank 0 rootlessBlock rfl).no_panic ?_
  rw [new_of_malformed sampleCrates Matrix64.sampleRank 0 rfl fun hwell =>
    absurd hwell.hashMerkleRoot.2 (by decide)]
  exact Part.mem_some _

end State
