/-
Which extranonces a stratum session accepts (`set_extranonce` of `src/stratum.rs`).

The size comes as a `u64` and is cast to `u32` before it is checked; extranonce1 is read by
the integer parser, which takes a leading `+`; and a size of eight bytes shifts by the whole
word.  On everything else acceptance and the two masks are as they should be.

* `operations` — the arithmetic that is done on the way, with its operands;
* `setExtranonce_eq_panic_iff` — with overflow checks, one of them overflows when the call
  panics;
* `extranonce_exact_iff` — the messages that are handled exactly.
-/
import VelkarMiner.NonceSpace

open Rust

/-! ### Messages -/

/-- A message with an extranonce and a size, of one of the three kinds. -/
inductive ExtranonceMessage (value : Value) (extranonce : Str) (nonceSize : U64) : Prop
  | method (method : Str) (params : List Value)
      (hmethod : value.get "method".toList = some (.string method))
      (hname : method = "set_extranonce".toList ∨ method = "mining.set_extranonce".toList)
      (hparams : value.get "params".toList = some (.array params))
      (hextranonce : params.head? = some (.string extranonce))
      (hsize : params[1]? = some (.number (.posInt nonceSize)))
  | result (xs : List Value)
      (hmethod : (value.get "method".toList).bind Value.asStr = none)
      (herror : ∀ e ∈ value.get "error".toList, e.isNull)
      (hresult : value.get "result".toList = some (.array xs))
      (hextranonce : xs[1]? = some (.string extranonce))
      (hsize : xs[2]? = some (.number (.posInt nonceSize)))

/-- The handler passes the extranonce on, with the size cast to `u32`. -/
theorem handleValue_extranonce {serde : SerdeJson} {checks : Bool} {value : Value}
    {extranonce : Str} {nonceSize : U64} (h : ExtranonceMessage value extranonce nonceSize)
    (session : Session) : handleValue serde checks value session
      = setExtranonce checks extranonce (nonceSize.setWidth 32) session := by
  cases h with
  | method method params hmethod hname hparams hextranonce hsize =>
    have hnot : method ≠ "mining.set_difficulty".toList := by
      rintro rfl
      exact absurd hname (by decide)
    simp only [handleValue, hmethod, Option.bind_some, Value.asStr]
    rw [if_neg hnot, if_pos hname]
    simp only [extranonceMethod, Method.lift_bind_run, hparams, hextranonce, hsize,
      Option.bind_some, Value.asArray, Value.asStr, Value.asU64, Outcome.okOr_some]
  | result xs hmethod herror hresult hextranonce hsize =>
    have hnull : ((value.get "error".toList).map fun e => !e.isNull).getD false = false := by
      cases he : value.get "error".toList with
      | none => rfl
      | some e => simp [herror e he]
    simp only [handleValue, hmethod, hnull, hresult]
    simp [subscribeResult, hextranonce, hsize, Value.asArray, Value.asStr, Value.asU64]

/-! ### The arithmetic on the way -/

/-- An operation on machine integers, with its operands. -/
inductive Operation where
  | castU32 (x : ℕ)
  | mulU32 (x y : ℕ)
  | addU32 (x y : ℕ)
  | shlU64 (x s : ℕ)

/-- The operation neither truncates nor overflows. -/
def Operation.Exact : Operation → Prop
  | castU32 x => x < 2 ^ 32
  | mulU32 x y => x * y < 2 ^ 32
  | addU32 x y => x + y < 2 ^ 32
  | shlU64 x s => s < 64 ∧ x * 2 ^ s < 2 ^ 64

/-- The operation panics in a build with overflow checks. -/
def Operation.Panics : Operation → Prop
  | castU32 _ => False
  | mulU32 x y => 2 ^ 32 ≤ x * y
  | addU32 x y => 2 ^ 32 ≤ x + y
  | shlU64 _ s => 64 ≤ s

/-- What is done for a size and an extranonce, in order; the first product is a
`checked_mul`. -/
def operations (extranonce : Str) (nonceSize : U64) : List Operation :=
  let freeBits := (nonceSize.setWidth 32).toNat * 8
  let extranonce := trimStart0x extranonce
  .castU32 nonceSize.toNat ::
    if freeBits > 64 then []
    else
      match extranonceValue extranonce with
      | .ok fixed =>
        let length := len extranonce % 2 ^ 32
        let fixedBits := length * 4 % 2 ^ 32
        [.castU32 (len extranonce), .mulU32 length 4, .addU32 fixedBits freeBits]
          ++ if (fixedBits + freeBits) % 2 ^ 32 > 64 then []
            else if freeBits = 64 then [.shlU64 fixed freeBits]
            else [.shlU64 1 freeBits, .shlU64 fixed freeBits]
      | _ => []

/-! ### What the integer parser takes -/

theorem allDigits_of_parseDigits {w radix r n : ℕ} {s : Str} (h : parseDigits w radix r s = .ok n) :
    AllDigits radix s := by
  induction s generalizing r with
  | nil => nofun
  | cons c s ih =>
    rw [parseDigits] at h
    cases hd : toDigit radix c with
    | none => rw [hd] at h; cases h
    | some d =>
      simp only [hd] at h
      split at h
      case isTrue =>
        intro e he
        obtain rfl | he := List.mem_cons.mp he
        · rw [hd]
          rfl
        · exact ih h e he
      case isFalse => cases h

/-- What is read is a string of digits, or one with a sign in front. -/
theorem digits_of_extranonceValue {digits : Str} {fixed : ℕ}
    (h : extranonceValue digits = .ok fixed) :
    AllDigits 16 digits ∨ ∃ s, digits = '+' :: s ∧ s ≠ [] ∧ AllDigits 16 s := by
  rw [extranonceValue] at h
  split at h
  case isTrue hnil =>
    left
    rw [hnil]
    intro c hc
    cases hc
  case isFalse =>
    cases hread : fromStrRadix 64 16 digits with
    | error e => rw [hread] at h; cases h
    | ok n =>
      unfold fromStrRadix at hread
      split at hread
      case h_1 => cases hread
      case h_2 => cases hread
      case h_3 s hne _ =>
        refine Or.inr ⟨s, rfl, ?_, allDigits_of_parseDigits hread⟩
        rintro rfl
        exact hne rfl
      case h_4 => exact Or.inl (allDigits_of_parseDigits hread)

theorem not_allDigits_sign {s : Str} : ¬ AllDigits 16 ('+' :: s) := by
  intro h
  exact absurd (h '+' (by simp)) (by decide)

/-- A sign in front of digits makes no difference. -/
theorem extranonceValue_sign {s : Str} (hne : s ≠ []) (h : AllDigits 16 s) :
    extranonceValue ('+' :: s) = extranonceValue s := by
  cases s with
  | nil => exact absurd rfl hne
  | cons c s =>
    have hc : c ≠ '+' := by
      rintro rfl
      exact not_allDigits_sign h
    have hsame : fromStrRadix 64 16 ('+' :: c :: s) = fromStrRadix 64 16 (c :: s) := by
      simp [fromStrRadix, hc]
    rw [extranonceValue, extranonceValue, if_neg (by simp), if_neg (by simp), hsame]

/-! ### The call, by its operations -/

section

variable {checks : Bool} {extranonce : Str} {nonceSize : U64} {session : Session} {fixed : ℕ}

theorem operations_of_large (h : 8 < (nonceSize.setWidth 32 : U32).toNat) :
    operations extranonce nonceSize = [.castU32 nonceSize.toNat] := by
  rw [operations]
  simp only
  rw [if_pos (by omega)]

/-- What is done after the size has passed and the digits have been read. -/
theorem operations_of_value (h : (nonceSize.setWidth 32 : U32).toNat ≤ 8)
    (hfixed : extranonceValue (trimStart0x extranonce) = .ok fixed) :
    operations extranonce nonceSize
      = .castU32 nonceSize.toNat :: .castU32 (len (trimStart0x extranonce))
        :: .mulU32 (len (trimStart0x extranonce) % 2 ^ 32) 4
        :: .addU32 (len (trimStart0x extranonce) % 2 ^ 32 * 4 % 2 ^ 32)
            ((nonceSize.setWidth 32 : U32).toNat * 8)
        :: if (len (trimStart0x extranonce) % 2 ^ 32 * 4 % 2 ^ 32
              + (nonceSize.setWidth 32 : U32).toNat * 8) % 2 ^ 32 > 64 then []
          else if (nonceSize.setWidth 32 : U32).toNat * 8 = 64
            then [.shlU64 fixed ((nonceSize.setWidth 32 : U32).toNat * 8)]
          else [.shlU64 1 ((nonceSize.setWidth 32 : U32).toNat * 8),
            .shlU64 fixed ((nonceSize.setWidth 32 : U32).toNat * 8)] := by
  rw [operations]
  simp only [hfixed]
  rw [if_neg (by omega)]
  rfl

theorem operations_of_no_value (h : ∀ fixed, extranonceValue (trimStart0x extranonce) ≠ .ok fixed) :
    operations extranonce nonceSize = [.castU32 nonceSize.toNat] := by
  rw [operations]
  simp only
  cases hvalue : extranonceValue (trimStart0x extranonce) with
  | ok fixed => exact absurd hvalue (h fixed)
  | err e => simp
  | panic => simp

/-- With overflow checks the call panics precisely when one of its operations does. -/
theorem setExtranonce_eq_panic_iff :
    (setExtranonce true extranonce (nonceSize.setWidth 32) session).1 = .panic
      ↔ ∃ op ∈ operations extranonce nonceSize, op.Panics := by
  rw [setExtranonce_panics_iff, ExtranonceCrashes]
  generalize hk : (nonceSize.setWidth 32 : U32) = k
  by_cases hsize : k.toNat ≤ 8
  case neg =>
    rw [operations_of_large (by rw [hk]; omega)]
    exact iff_of_false (fun h => hsize h.1) (by simp [Operation.Panics])
  rw [and_iff_right hsize]
  rcases extranonceValue_cases (trimStart0x extranonce) with
    ⟨⟨fixed, hfixed⟩, hread⟩ | ⟨⟨e, he⟩, hread⟩
  case inr =>
    rw [operations_of_no_value (by simp [he])]
    exact iff_of_false (fun h => hread h.1) (by simp [Operation.Panics])
  rw [and_iff_right hread, operations_of_value (by rwa [hk]) hfixed, hk]
  generalize hlength : len (trimStart0x extranonce) % 2 ^ 32 = length
  have hlt : length < 2 ^ 32 := by
    rw [← hlength]
    exact Nat.mod_lt _ (by norm_num)
  simp only [List.mem_cons, exists_eq_or_imp, Operation.Panics, false_or]
  by_cases hmul : 2 ^ 32 ≤ length * 4
  · exact iff_of_true (Or.inl (by omega)) (Or.inl hmul)
  rw [Nat.mod_eq_of_lt (by omega : length * 4 < 2 ^ 32), or_iff_right hmul]
  by_cases hadd : 2 ^ 32 ≤ length * 4 + k.toNat * 8
  · exact iff_of_true (Or.inl (by omega)) (Or.inl hadd)
  rw [Nat.mod_eq_of_lt (by omega : length * 4 + k.toNat * 8 < 2 ^ 32), or_iff_right hadd]
  split
  case isTrue hwide => exact iff_of_false (by omega) (by simp)
  case isFalse hfits =>
    -- only the shifts are left
    split
    case isTrue hall => exact iff_of_true (by omega) ⟨_, List.mem_singleton_self _, hall.ge⟩
    case isFalse hall =>
      refine iff_of_false (by omega) ?_
      rintro ⟨op, hop, hpanics⟩
      simp only [List.mem_cons, List.not_mem_nil, or_false] at hop
      obtain rfl | rfl := hop
      · have : 64 ≤ k.toNat * 8 := hpanics
        omega
      · have : 64 ≤ k.toNat * 8 := hpanics
        omega

/-- The call for a size and an extranonce that are read, when the widths fit. -/
theorem setExtranonce_of_width (hsize : (nonceSize.setWidth 32 : U32).toNat ≤ 8)
    (hfixed : extranonceValue (trimStart0x extranonce) = .ok fixed)
    (hwidth : 4 * len (trimStart0x extranonce) + 8 * (nonceSize.setWidth 32 : U32).toNat < 2 ^ 32) :
    setExtranonce checks extranonce (nonceSize.setWidth 32) session
      = placeExtranonce checks fixed ((nonceSize.setWidth 32 : U32).toNat * 8)
          (4 * len (trimStart0x extranonce) + (nonceSize.setWidth 32 : U32).toNat * 8) session := by
  rw [setExtranonce_small checks extranonce hsize, Method.lift_bind_run, hfixed]
  simp only
  rw [Method.lift_bind_run, extranonceBits_short checks (by omega)]

/-- The fields that are set below the full width. -/
theorem placeExtranonce_of_lt {freeBits bits : ℕ} (hbits : bits ≤ 64) (hfree : freeBits < 64) :
    placeExtranonce checks fixed freeBits bits session
      = (.ok (), { session with handler := { session.handler with
          nonceMask := ((1 : U64) <<< freeBits) - 1
          nonceFixed := BitVec.ofNat 64 fixed <<< freeBits } }) := by
  rw [placeExtranonce, if_neg (by omega), Method.modify_bind_run, Method.lift_bind_run, shlU64,
    if_pos hfree, if_neg (by omega)]
  rfl

end

/-! ### Exact handling -/

/-- The message is accepted when extranonce1 consists of hexadecimal digits and fits into the
nonce with extranonce2, the fields are then the mask and the digits above it, and nothing is
truncated and nothing overflows on the way. -/
structure HandledExactly (serde : SerdeJson) (checks : Bool) (value : Value) (extranonce : Str)
    (nonceSize : U64) (session : Session) : Prop where
  accepted_iff : (handleValue serde checks value session).1 = .ok ()
    ↔ AllDigits 16 (trimStart0x extranonce) ∧ nonceSize.toNat ≤ 8
      ∧ 4 * (trimStart0x extranonce).length + 8 * nonceSize.toNat ≤ 64
  fields : (handleValue serde checks value session).1 = .ok () →
    (handleValue serde checks value session).2.handler.nonceMask.toNat
        = 2 ^ (8 * nonceSize.toNat) - 1
      ∧ (handleValue serde checks value session).2.handler.nonceFixed.toNat
        = digitsValue 16 (trimStart0x extranonce) * 2 ^ (8 * nonceSize.toNat)
  exact : ∀ op ∈ operations extranonce nonceSize, op.Exact

/-- The size fits into `u32`, the second part does not take all of the nonce, the width of what
is read fits into `u32`, and no sign stands in front of digits that would be accepted. -/
structure ExtranonceInRange (extranonce : Str) (nonceSize : U64) : Prop where
  size : nonceSize.toNat < 2 ^ 32
  shift : ¬ (trimStart0x extranonce = [] ∧ nonceSize.toNat = 8)
  width : nonceSize.toNat ≤ 8 → (∃ fixed, extranonceValue (trimStart0x extranonce) = .ok fixed) →
    4 * len (trimStart0x extranonce) + 8 * nonceSize.toNat < 2 ^ 32
  sign : ∀ s, trimStart0x extranonce = '+' :: s → s ≠ [] → AllDigits 16 s →
    64 < 4 * (s.length + 1) + 8 * nonceSize.toNat

section

variable {checks : Bool} {extranonce : Str} {nonceSize : U64} {session : Session} {fixed : ℕ}

/-- What is read for digits is their value. -/
theorem eq_digitsValue_of_allDigits (h : AllDigits 16 (trimStart0x extranonce))
    (hlen : (trimStart0x extranonce).length ≤ 16)
    (hfixed : extranonceValue (trimStart0x extranonce) = .ok fixed) :
    fixed = digitsValue 16 (trimStart0x extranonce) :=
  Outcome.ok.inj (hfixed.symm.trans (extranonceValue_of_allDigits h hlen))

/-- Digits that fit into the nonce are read. -/
theorem not_fits_of_no_value (h : ∀ fixed, extranonceValue (trimStart0x extranonce) ≠ .ok fixed) :
    ¬ (AllDigits 16 (trimStart0x extranonce) ∧ nonceSize.toNat ≤ 8
      ∧ 4 * (trimStart0x extranonce).length + 8 * nonceSize.toNat ≤ 64) := by
  rintro ⟨hdigits, -, hfits⟩
  exact h _ (extranonceValue_of_allDigits hdigits (by omega))

/-- A width beyond `u32` is truncated or overflows. -/
theorem inexact_of_wide (hsize : (nonceSize.setWidth 32 : U32).toNat ≤ 8)
    (hfixed : extranonceValue (trimStart0x extranonce) = .ok fixed)
    (hwide : 2 ^ 32 ≤ 4 * len (trimStart0x extranonce) + 8 * (nonceSize.setWidth 32 : U32).toNat) :
    ¬ ∀ op ∈ operations extranonce nonceSize, op.Exact := by
  rw [operations_of_value hsize hfixed]
  intro hexact
  have hcast : len (trimStart0x extranonce) < 2 ^ 32 :=
    hexact (.castU32 (len (trimStart0x extranonce))) (by simp)
  have hmul : len (trimStart0x extranonce) % 2 ^ 32 * 4 < 2 ^ 32 :=
    hexact (.mulU32 (len (trimStart0x extranonce) % 2 ^ 32) 4) (by simp)
  have hadd : len (trimStart0x extranonce) % 2 ^ 32 * 4 % 2 ^ 32
      + (nonceSize.setWidth 32 : U32).toNat * 8 < 2 ^ 32 :=
    hexact (.addU32 (len (trimStart0x extranonce) % 2 ^ 32 * 4 % 2 ^ 32)
      ((nonceSize.setWidth 32 : U32).toNat * 8)) (by simp)
  rw [Nat.mod_eq_of_lt hcast] at hmul hadd
  rw [Nat.mod_eq_of_lt hmul] at hadd
  omega

/-- Below that width everything is exact, up to the shift by the whole word. -/
theorem exact_iff_of_width (hsize : nonceSize.toNat ≤ 8)
    (hfixed : extranonceValue (trimStart0x extranonce) = .ok fixed)
    (hwidth : 4 * len (trimStart0x extranonce) + 8 * nonceSize.toNat < 2 ^ 32) :
    (∀ op ∈ operations extranonce nonceSize, op.Exact)
      ↔ ¬ (len (trimStart0x extranonce) = 0 ∧ nonceSize.toNat = 8) := by
  have hcast : (nonceSize.setWidth 32 : U32).toNat = nonceSize.toNat := by
    rw [BitVec.toNat_setWidth, Nat.mod_eq_of_lt (by omega)]
  have hlt := extranonceValue_lt hfixed
  rw [operations_of_value (by omega) hfixed, hcast]
  generalize len (trimStart0x extranonce) = length at *
  generalize nonceSize.toNat = k at *
  rw [Nat.mod_eq_of_lt (by omega : length < 2 ^ 32),
    Nat.mod_eq_of_lt (by omega : length * 4 < 2 ^ 32),
    Nat.mod_eq_of_lt (by omega : length * 4 + k * 8 < 2 ^ 32)]
  simp only [List.forall_mem_cons, Operation.Exact]
  rw [and_iff_right (by omega), and_iff_right (by omega), and_iff_right (by omega),
    and_iff_right (by omega)]
  split
  case isTrue hwide => exact iff_of_true (by simp) (by omega)
  case isFalse hfits =>
    split
    case isTrue hall =>
      refine iff_of_false ?_ (by omega)
      simp only [List.forall_mem_cons]
      omega
    case isFalse hall =>
      refine iff_of_true ?_ (by omega)
      have hfree : 2 ^ (k * 8) < 2 ^ 64 := Nat.pow_lt_pow_right (by norm_num) (by omega)
      have hplaced : fixed * 2 ^ (k * 8) < 2 ^ 64 :=
        calc fixed * 2 ^ (k * 8) < 2 ^ (4 * length) * 2 ^ (k * 8) :=
              Nat.mul_lt_mul_of_pos_right hlt (by positivity)
          _ = 2 ^ (4 * length + k * 8) := (pow_add ..).symm
          _ ≤ 2 ^ 64 := Nat.pow_le_pow_right (by norm_num) (by omega)
      simp only [List.forall_mem_cons, List.not_mem_nil, IsEmpty.forall_iff,
        implies_true, and_true]
      exact ⟨⟨by omega, by rwa [one_mul]⟩, by omega, hplaced⟩

/-- What an accepted extranonce sets, unless all of the nonce stays free. -/
theorem accepted_run (hsize : nonceSize.toNat < 8)
    (hfixed : extranonceValue (trimStart0x extranonce) = .ok fixed)
    (hbits : 4 * len (trimStart0x extranonce) + 8 * nonceSize.toNat ≤ 64) :
    ∃ session', setExtranonce checks extranonce (nonceSize.setWidth 32) session
        = (.ok (), session')
      ∧ session'.handler.nonceMask.toNat = 2 ^ (8 * nonceSize.toNat) - 1
      ∧ session'.handler.nonceFixed.toNat = fixed * 2 ^ (8 * nonceSize.toNat) := by
  have hcast : (nonceSize.setWidth 32 : U32).toNat = nonceSize.toNat := by
    rw [BitVec.toNat_setWidth, Nat.mod_eq_of_lt (by omega)]
  have hlt := extranonceValue_lt hfixed
  rw [setExtranonce_of_width (by omega) hfixed (by omega), hcast,
    placeExtranonce_of_lt (by omega) (by omega)]
  refine ⟨_, rfl, ?_, ?_⟩
  · rw [Nat.mul_comm 8]
    exact toNat_mask (by omega)
  · have hplaced : fixed * 2 ^ (nonceSize.toNat * 8) < 2 ^ 64 :=
      calc fixed * 2 ^ (nonceSize.toNat * 8)
          < 2 ^ (4 * len (trimStart0x extranonce)) * 2 ^ (nonceSize.toNat * 8) :=
            Nat.mul_lt_mul_of_pos_right hlt (by positivity)
        _ = 2 ^ (4 * len (trimStart0x extranonce) + nonceSize.toNat * 8) := (pow_add ..).symm
        _ ≤ 2 ^ 64 := Nat.pow_le_pow_right (by norm_num) (by omega)
    have hvalue : fixed < 2 ^ 64 :=
      lt_of_le_of_lt (Nat.le_mul_of_pos_right _ (by positivity)) hplaced
    show (BitVec.ofNat 64 fixed <<< (nonceSize.toNat * 8)).toNat = _
    rw [BitVec.toNat_shiftLeft, BitVec.toNat_ofNat, Nat.mod_eq_of_lt hvalue, Nat.shiftLeft_eq,
      Nat.mod_eq_of_lt hplaced, Nat.mul_comm 8]

section

variable {serde : SerdeJson} {value : Value}

/-- A size over eight is rejected before anything else is done. -/
theorem exact_of_large (hcast : nonceSize.toNat < 2 ^ 32) (hsize : ¬ nonceSize.toNat ≤ 8)
    (hrun : handleValue serde checks value session
      = setExtranonce checks extranonce (nonceSize.setWidth 32) session) :
    HandledExactly serde checks value extranonce nonceSize session
      ↔ ExtranonceInRange extranonce nonceSize := by
  have hk : (nonceSize.setWidth 32 : U32).toNat = nonceSize.toNat := by
    rw [BitVec.toNat_setWidth, Nat.mod_eq_of_lt hcast]
  have hlarge : 8 < (nonceSize.setWidth 32 : U32).toNat := by omega
  obtain ⟨e, he⟩ := setExtranonce_large checks extranonce hlarge session
  rw [he] at hrun
  refine iff_of_true ⟨by simp [hrun, hsize], by simp [hrun], ?_⟩
    ⟨hcast, by omega, fun h => absurd h hsize, fun s _ _ _ => by omega⟩
  rw [operations_of_large hlarge]
  simpa [Operation.Exact] using hcast

/-- An extranonce that the integer parser does not take is rejected. -/
theorem exact_of_no_value (hcast : nonceSize.toNat < 2 ^ 32) (hsize : nonceSize.toNat ≤ 8)
    (hread : ¬ ∃ fixed, extranonceValue (trimStart0x extranonce) = .ok fixed)
    (hrun : handleValue serde checks value session
      = setExtranonce checks extranonce (nonceSize.setWidth 32) session) :
    HandledExactly serde checks value extranonce nonceSize session
      ↔ ExtranonceInRange extranonce nonceSize := by
  have hread' : ∀ fixed, extranonceValue (trimStart0x extranonce) ≠ .ok fixed := by
    simpa using hread
  have hreject : (handleValue serde checks value session).1 ≠ .ok () := by
    intro hok
    rw [hrun] at hok
    obtain ⟨-, fixed, -, hfixed, -⟩ := setExtranonce_ok (Prod.ext hok rfl)
    exact hread ⟨fixed, hfixed⟩
  refine iff_of_true ⟨iff_of_false hreject (not_fits_of_no_value hread'),
    fun h => absurd h hreject, ?_⟩ ⟨hcast, ?_, fun _ h => absurd h hread, ?_⟩
  · rw [operations_of_no_value hread']
    simpa [Operation.Exact] using hcast
  · rintro ⟨hnil, -⟩
    exact hread ⟨0, by simp [hnil, extranonceValue]⟩
  · intro s hs hne hdigits
    by_contra hshort
    refine hread ⟨digitsValue 16 s, ?_⟩
    rw [hs, extranonceValue_sign hne hdigits]
    exact extranonceValue_of_allDigits hdigits (by omega)

/-- An extranonce that leaves no room for the free bytes is rejected. -/
theorem exact_of_no_room (hsize : nonceSize.toNat ≤ 8)
    (hfixed : extranonceValue (trimStart0x extranonce) = .ok fixed)
    (hwidth : 4 * len (trimStart0x extranonce) + 8 * nonceSize.toNat < 2 ^ 32)
    (hbits : ¬ 4 * len (trimStart0x extranonce) + 8 * nonceSize.toNat ≤ 64)
    (hrun : handleValue serde checks value session
      = setExtranonce checks extranonce (nonceSize.setWidth 32) session) :
    HandledExactly serde checks value extranonce nonceSize session
      ↔ ExtranonceInRange extranonce nonceSize := by
  have hk : (nonceSize.setWidth 32 : U32).toNat = nonceSize.toNat := by
    rw [BitVec.toNat_setWidth, Nat.mod_eq_of_lt (by omega)]
  have hreject : (handleValue serde checks value session).1 ≠ .ok () := by
    rw [hrun, setExtranonce_of_width (by omega) hfixed (by omega), placeExtranonce,
      if_pos (by omega)]
    simp
  refine iff_of_true ⟨iff_of_false hreject ?_, fun h => absurd h hreject,
    (exact_iff_of_width hsize hfixed hwidth).mpr (by omega)⟩
    ⟨by omega, ?_, fun _ _ => hwidth, ?_⟩
  · rintro ⟨hdigits, -, hfits⟩
    rw [len_of_allDigits hdigits] at hbits
    exact hbits hfits
  · rintro ⟨hnil, hall⟩
    rw [hnil, len_nil] at hbits
    omega
  · intro s hs hne hdigits
    have hsign : '+'.utf8Size = 1 := by decide
    rw [hs, len_cons, len_of_allDigits hdigits, hsign] at hbits
    omega

/-- An extranonce that is read and fits is accepted; it should be when it has no sign. -/
theorem exact_of_room (hsize : nonceSize.toNat < 8)
    (hfixed : extranonceValue (trimStart0x extranonce) = .ok fixed)
    (hbits : 4 * len (trimStart0x extranonce) + 8 * nonceSize.toNat ≤ 64)
    (hrun : handleValue serde checks value session
      = setExtranonce checks extranonce (nonceSize.setWidth 32) session) :
    HandledExactly serde checks value extranonce nonceSize session
      ↔ ExtranonceInRange extranonce nonceSize := by
  obtain ⟨session', hok, hmask, hplaced⟩ : ∃ session',
      setExtranonce checks extranonce (nonceSize.setWidth 32) session = (.ok (), session')
      ∧ session'.handler.nonceMask.toNat = 2 ^ (8 * nonceSize.toNat) - 1
      ∧ session'.handler.nonceFixed.toNat = fixed * 2 ^ (8 * nonceSize.toNat) :=
    accepted_run hsize hfixed hbits
  rw [hok] at hrun
  obtain hdigits | ⟨s, hs, hne, hdigits⟩ := digits_of_extranonceValue hfixed
  · have hlen := len_of_allDigits hdigits
    refine iff_of_true ⟨iff_of_true (by rw [hrun]) ⟨hdigits, by omega, by omega⟩, fun _ => ?_,
      (exact_iff_of_width (by omega) hfixed (by omega)).mpr (by omega)⟩
      ⟨by omega, by omega, fun _ _ => by omega, ?_⟩
    · rw [hrun, ← eq_digitsValue_of_allDigits hdigits (by omega) hfixed]
      exact ⟨hmask, hplaced⟩
    · intro s hs
      rw [hs] at hdigits
      exact absurd hdigits not_allDigits_sign
  · refine iff_of_false (fun h => ?_) (fun h => ?_)
    · have haccept := (h.accepted_iff.mp (by rw [hrun])).1
      rw [hs] at haccept
      exact not_allDigits_sign haccept
    · have hsign : '+'.utf8Size = 1 := by decide
      have := h.sign s hs hne hdigits
      rw [hs, len_cons, len_of_allDigits hdigits, hsign] at hbits
      omega

end

end

/-- A message with an extranonce is handled exactly precisely when it is in range. -/
theorem extranonce_exact_iff (serde : SerdeJson) (checks : Bool) (value : Value)
    (extranonce : Str) (nonceSize : U64) (session : Session)
    (h : ExtranonceMessage value extranonce nonceSize) :
    HandledExactly serde checks value extranonce nonceSize session
      ↔ ExtranonceInRange extranonce nonceSize := by
  have hrun : handleValue serde checks value session
      = setExtranonce checks extranonce (nonceSize.setWidth 32) session :=
    handleValue_extranonce h session
  -- the cases are those of the code, in its order: the cast, the size, the parser, the shifts
  by_cases hcast : nonceSize.toNat < 2 ^ 32
  case neg =>
    refine iff_of_false (fun h => hcast ?_) (fun h => hcast h.size)
    exact h.exact (.castU32 nonceSize.toNat) (by simp [operations])
  by_cases hsize : nonceSize.toNat ≤ 8
  case neg => exact exact_of_large hcast hsize hrun
  by_cases hread : ∃ fixed, extranonceValue (trimStart0x extranonce) = .ok fixed
  case neg => exact exact_of_no_value hcast hsize hread hrun
  obtain ⟨fixed, hfixed⟩ := hread
  by_cases hwidth : 4 * len (trimStart0x extranonce) + 8 * nonceSize.toNat < 2 ^ 32
  case neg =>
    have hk : (nonceSize.setWidth 32 : U32).toNat = nonceSize.toNat := by
      rw [BitVec.toNat_setWidth, Nat.mod_eq_of_lt hcast]
    exact iff_of_false (fun h => inexact_of_wide (by omega) hfixed (by omega) h.exact)
      (fun h => hwidth (h.width hsize ⟨fixed, hfixed⟩))
  by_cases hbits : 4 * len (trimStart0x extranonce) + 8 * nonceSize.toNat ≤ 64
  case neg => exact exact_of_no_room hsize hfixed hwidth hbits hrun
  by_cases hall : nonceSize.toNat = 8
  case pos =>
    -- the extranonce is empty, and the shift by 64 is not exact
    have hlen : len (trimStart0x extranonce) = 0 := by omega
    have hnil : trimStart0x extranonce = [] := by
      have := length_le_len (trimStart0x extranonce)
      exact List.eq_nil_of_length_eq_zero (by omega)
    exact iff_of_false
      (fun h => (exact_iff_of_width hsize hfixed hwidth).mp h.exact ⟨hlen, hall⟩)
      (fun h => h.shift ⟨hnil, hall⟩)
  exact exact_of_room (by omega) hfixed hbits hrun

/-- A message of `mining.set_extranonce`. -/
def extranonceValueOf (extranonce : Str) (nonceSize : U64) : Value :=
  .object [("method".toList, .string "mining.set_extranonce".toList),
    ("params".toList, .array [.string extranonce, .number (.posInt nonceSize)])]

theorem extranonceMessage_of (extranonce : Str) (nonceSize : U64) :
    ExtranonceMessage (extranonceValueOf extranonce nonceSize) extranonce nonceSize :=
  .method "mining.set_extranonce".toList [.string extranonce, .number (.posInt nonceSize)]
    (by rfl) (Or.inr rfl) (by rfl) rfl rfl

/-- The four digits of the test with six free bytes. -/
theorem fe93_handled_exactly :
    HandledExactly noticeSerde true (extranonceValueOf "fe93".toList 6) "fe93".toList 6
      ⟨.connect, []⟩ :=
  (extranonce_exact_iff noticeSerde true _ "fe93".toList 6 ⟨.connect, []⟩
    (extranonceMessage_of "fe93".toList 6)).mpr
    { size := by decide
      shift := by decide
      width := fun _ _ => by decide
      sign := by
        intro s hs
        have hdigits : AllDigits 16 (trimStart0x "fe93".toList) := by decide
        rw [hs] at hdigits
        exact absurd hdigits not_allDigits_sign }

/-- A size of `2 ^ 32 + 4` is taken for four. -/
theorem large_size_accepted :
    ¬ ∀ (serde : SerdeJson) (checks : Bool) (value : Value) (extranonce : Str) (nonceSize : U64)
      (session : Session), ExtranonceMessage value extranonce nonceSize →
        HandledExactly serde checks value extranonce nonceSize session := by
  intro hexact
  have h := (hexact noticeSerde true _ "fe93".toList 0x100000004 ⟨.connect, []⟩
    (extranonceMessage_of "fe93".toList 0x100000004)).accepted_iff.mp (by decide +kernel)
  exact absurd h.2.1 (by decide)
