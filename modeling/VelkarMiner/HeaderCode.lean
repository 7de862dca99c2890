/-
The header serialisation as a code (`serialize_header` in `src/pow.rs`).

The bytes fed to the header hash determine the header, up to the case of
hexadecimal letters and the digit that pads the blue work, and none of them is
a proper prefix of another header's.  The serialisation is a sequence of
prefix codes, so that each field needs an argument of its own only.

* `decodeToSlice_chars` — what a decoded hexadecimal field says about its text;
* `serializeHeader_code` — the serialisation writes a word of `fieldsCode`;
* `header_bytes_determine_header` — unique decoding, with and without the nonce.
-/
import Mathlib.Data.List.GetD
import VelkarMiner.Header
import VelkarMiner.PrefixCodes

open Bytes Rust

/-! ### Hexadecimal fields -/

/-- Equal up to the case of letters. -/
def SameHex (a b : Str) : Prop := a.map Char.toLower = b.map Char.toLower

/-- The digits of `hexVal` are those of the integer parser. -/
theorem toOption_hexVal (b : Byte) (idx : ℕ) :
    (hexVal b idx).toOption = (toDigit 16 (Char.ofNat b.toNat)).map (BitVec.ofNat 8) := by
  have hidx : (hexVal b idx).toOption = (hexVal b 0).toOption := by
    rw [hexVal, hexVal]
    split_ifs <;> rfl
  have hall : ∀ n < 256, (hexVal (BitVec.ofNat 8 n) 0).toOption
      = (toDigit 16 (Char.ofNat n)).map (BitVec.ofNat 8) := by decide +kernel
  have := hall b.toNat b.isLt
  rw [BitVec.ofNat_toNat, BitVec.setWidth_eq] at this
  rw [hidx, this]

theorem hexVal_ok {b : Byte} {idx : ℕ} {v : Byte} (h : hexVal b idx = .ok v) :
    toDigit 16 (Char.ofNat b.toNat) = some v.toNat := by
  have := toOption_hexVal b idx
  rw [h] at this
  obtain ⟨d, hd, hv⟩ := Option.map_eq_some_iff.mp this.symm
  have hlt := toDigit_lt hd
  rw [hd, ← hv, BitVec.toNat_ofNat, Nat.mod_eq_of_lt (by omega)]

/-- Only ASCII characters are encoded by bytes below 128. -/
theorem utf8EncodeChar_ascii {c : Char} (h : ∀ b ∈ String.utf8EncodeChar c, b.toNat < 128) :
    c.toNat < 128 ∧ String.utf8EncodeChar c = [UInt8.ofNat c.toNat] := by
  have hval : c.val.toNat = c.toNat := rfl
  rw [String.utf8EncodeChar] at h ⊢
  simp only [hval] at h ⊢
  have hbig : ∀ {n : ℕ} {bs : List UInt8}, (∀ b ∈ UInt8.ofNat n :: bs, b.toNat < 128) →
      n < 256 → n < 128 := by
    intro n bs hbs hn
    have := hbs _ List.mem_cons_self
    rwa [UInt8.toNat_ofNat', Nat.mod_eq_of_lt hn] at this
  split at h
  case isTrue hc =>
    rw [if_pos hc]
    exact ⟨by omega, rfl⟩
  case isFalse =>
    exfalso
    split at h
    · have := hbig h (by omega)
      omega
    · split at h
      · have := hbig h (by omega)
        omega
      · have := hbig h (by omega)
        omega

theorem asBytes_ascii {s : Str} (h : ∀ b ∈ asBytes s, b.toNat < 128) :
    asBytes s = s.map fun c => BitVec.ofNat 8 c.toNat := by
  induction s with
  | nil => rfl
  | cons c s ih =>
    have hcons : asBytes (c :: s)
        = (String.utf8EncodeChar c).map UInt8.toBitVec ++ asBytes s := rfl
    rw [hcons] at h ⊢
    obtain ⟨-, hc⟩ := utf8EncodeChar_ascii (c := c) fun b hb =>
      h b.toBitVec (List.mem_append_left _ (List.mem_map_of_mem hb))
    rw [ih fun b hb => h b (List.mem_append_right _ hb), hc]
    rfl

theorem forall₂_of_mapM {ε α β : Type} {f : α → Except ε β} {as : List α} {bs : List β}
    (h : as.mapM f = .ok bs) : List.Forall₂ (fun a b => f a = .ok b) as bs := by
  induction as generalizing bs with
  | nil =>
    obtain rfl : [] = bs := Except.ok.inj h
    exact .nil
  | cons a as ih =>
    rw [List.mapM_cons] at h
    cases ha : f a with
    | error e => rw [ha] at h; cases h
    | ok b =>
      rw [ha] at h
      cases hrest : as.mapM f with
      | error e => rw [hrest] at h; cases h
      | ok bs' =>
        rw [hrest] at h
        obtain rfl : b :: bs' = bs := Except.ok.inj h
        exact .cons ha (ih hrest)

/-- The digits of two hexadecimal characters, as a byte. -/
theorem nibbles_of_byte {high low : Byte} (hhigh : high.toNat < 16) (hlow : low.toNat < 16) :
    (high <<< 4 ||| low).toNat = high.toNat * 16 + low.toNat := by
  have hall : ∀ a < 16, ∀ b < 16, (BitVec.ofNat 8 a <<< 4 ||| BitVec.ofNat 8 b).toNat
      = a * 16 + b := by decide
  have := hall _ hhigh _ hlow
  simpa using this

/-- What is read as a hexadecimal digit is one, in either case. -/
theorem hexVal_char {b v : Byte} {idx : ℕ} (h : hexVal b idx = .ok v) :
    b.toNat < 128 ∧ v.toNat < 16 ∧ (Char.ofNat b.toNat).toLower = hexDigit v.toNat := by
  have hdigit := hexVal_ok h
  refine ⟨?_, toDigit_lt hdigit, (hexDigit_toDigit hdigit).symm⟩
  by_contra hbig
  have hall : ∀ n < 256, 128 ≤ n → toDigit 16 (Char.ofNat n) = none := by decide +kernel
  rw [hall b.toNat b.isLt (by omega)] at hdigit
  cases hdigit

/-- Every byte that is decoded comes from two digits. -/
theorem decodeToSlice_digits {data bytes : List Byte} {n : ℕ}
    (h : decodeToSlice data n = .ok bytes) :
    bytes.length = n ∧ data.length = 2 * n ∧ ∀ i < n, ∃ high low,
      hexVal (data.getD (2 * i) 0) (2 * i) = .ok high
        ∧ hexVal (data.getD (2 * i + 1) 0) (2 * i + 1) = .ok low
        ∧ bytes.getD i 0 = high <<< 4 ||| low := by
  rw [decodeToSlice] at h
  split at h
  case isTrue => cases h
  case isFalse heven =>
    split at h
    case isTrue => cases h
    case isFalse hlen =>
      have hbytes := forall₂_of_mapM h
      have hlength : bytes.length = n := by
        have := hbytes.length_eq
        rw [List.length_range] at this
        exact this.symm
      refine ⟨hlength, by omega, fun i hi => ?_⟩
      have hbyte := (List.forall₂_iff_get.mp hbytes).2 i (by simpa using hi) (by omega)
      simp only [List.get_eq_getElem, List.getElem_range] at hbyte
      rw [← List.getD_eq_getElem bytes 0] at hbyte
      cases hhigh : hexVal (data.getD (2 * i) 0) (2 * i) with
      | error e => rw [hhigh] at hbyte; cases hbyte
      | ok high =>
        rw [hhigh] at hbyte
        cases hlow : hexVal (data.getD (2 * i + 1) 0) (2 * i + 1) with
        | error e => rw [hlow] at hbyte; cases hbyte
        | ok low =>
          rw [hlow] at hbyte
          exact ⟨high, low, rfl, rfl, (Except.ok.inj hbyte).symm⟩

/-- In an ASCII string byte `j` is character `j`. -/
theorem getD_asBytes_ascii {s : Str} (hascii : ∀ b ∈ asBytes s, b.toNat < 128) {j : ℕ}
    (hj : j < s.length) : Char.ofNat ((asBytes s).getD j 0).toNat = s.getD j ' ' := by
  have hmem : (asBytes s).getD j 0 = BitVec.ofNat 8 (s[j]).toNat := by
    rw [asBytes_ascii hascii, List.getD_eq_getElem _ _ (by simpa using hj), List.getElem_map]
  have hlt : (s[j]).toNat < 128 := by
    refine (utf8EncodeChar_ascii fun b hb => ?_).1
    refine hascii b.toBitVec (List.mem_flatMap.mpr ⟨s[j], List.getElem_mem hj, ?_⟩)
    exact List.mem_map_of_mem hb
  rw [hmem, BitVec.toNat_ofNat, Nat.mod_eq_of_lt (by omega), Char.ofNat_toNat,
    List.getD_eq_getElem _ _ hj]

/-- The characters of a decoded field are the digits of its bytes. -/
theorem decodeToSlice_chars {s : Str} {n : ℕ} {bytes : List Byte}
    (h : decodeToSlice (asBytes s) n = .ok bytes) :
    bytes.length = n ∧ s.length = 2 * n ∧ ∀ i < n,
      (s.getD (2 * i) ' ').toLower = hexDigit ((bytes.getD i 0).toNat / 16)
      ∧ (s.getD (2 * i + 1) ' ').toLower = hexDigit ((bytes.getD i 0).toNat % 16) := by
  obtain ⟨hlength, hdata, hdigits⟩ := decodeToSlice_digits h
  -- every byte of the string is one of the digits, so the string is ASCII
  have hascii : ∀ b ∈ asBytes s, b.toNat < 128 := by
    intro b hb
    obtain ⟨j, hj, rfl⟩ := List.getElem_of_mem hb
    obtain ⟨high, low, hhigh, hlow, -⟩ := hdigits (j / 2) (by omega)
    obtain hpar | hpar := Nat.mod_two_eq_zero_or_one j
    · rw [show 2 * (j / 2) = j by omega, List.getD_eq_getElem _ _ hj] at hhigh
      exact (hexVal_char hhigh).1
    · rw [show 2 * (j / 2) + 1 = j by omega, List.getD_eq_getElem _ _ hj] at hlow
      exact (hexVal_char hlow).1
  have hslen : s.length = 2 * n := by
    have := congrArg List.length (asBytes_ascii hascii)
    rw [List.length_map] at this
    omega
  refine ⟨hlength, hslen, fun i hi => ?_⟩
  obtain ⟨high, low, hhigh, hlow, hbyte⟩ := hdigits i hi
  obtain ⟨-, hhigh', hhighChar⟩ := hexVal_char hhigh
  obtain ⟨-, hlow', hlowChar⟩ := hexVal_char hlow
  rw [getD_asBytes_ascii hascii (by omega)] at hhighChar hlowChar
  rw [hbyte, nibbles_of_byte hhigh' hlow', hhighChar, hlowChar]
  refine ⟨congrArg hexDigit ?_, congrArg hexDigit ?_⟩
  · omega
  · omega

/-- Fields with the same bytes have the same digits. -/
theorem sameHex_of_decode {a b : Str} {n : ℕ} {bytes : List Byte}
    (ha : decodeToSlice (asBytes a) n = .ok bytes) (hb : decodeToSlice (asBytes b) n = .ok bytes) :
    SameHex a b := by
  obtain ⟨-, hlen, hchars⟩ := decodeToSlice_chars ha
  obtain ⟨-, hlen', hchars'⟩ := decodeToSlice_chars hb
  apply List.ext_getElem
  · rw [List.length_map, List.length_map, hlen, hlen']
  · intro j h₁ h₂
    rw [List.length_map] at h₁ h₂
    rw [List.getElem_map, List.getElem_map, ← List.getD_eq_getElem _ ' ' h₁,
      ← List.getD_eq_getElem _ ' ' h₂]
    obtain ⟨heven, hodd⟩ := hchars (j / 2) (by omega)
    obtain ⟨heven', hodd'⟩ := hchars' (j / 2) (by omega)
    obtain hpar | hpar := Nat.mod_two_eq_zero_or_one j
    · rw [show 2 * (j / 2) = j by omega] at heven heven'
      rw [heven, heven']
    · rw [show 2 * (j / 2) + 1 = j by omega] at hodd hodd'
      rw [hodd, hodd']

/-! ### The codes of the fields -/

def intCode (w : ℕ) : Code (BitVec w) Byte := fun x z => z = leBytes x

/-- A count is written in 64 bits. -/
def countCode : Code ℕ Byte := fun n z => n < 2 ^ 64 ∧ z = leBytes (BitVec.ofNat 64 n)

def versionCode : Code U32 Byte := fun version z => ∃ v, tryIntoU16 version = some v ∧ z = leBytes v

def hashCode : Code Str Byte := fun field z => decodeToSlice (asBytes field) 32 = .ok z

/-- The text of the blue work with an even number of digits. -/
def padEven (s : Str) : Str := if (asBytes s).length % 2 = 0 then s else '0' :: s

def blueWorkCode : Code Str Byte := fun blueWork z =>
  ∃ n bytes, n ≤ 32 ∧ decodeToSlice (asBytes (padEven blueWork)) n = .ok bytes
    ∧ z = leBytes (BitVec.ofNat 64 n) ++ bytes

@[simp] theorem length_leBytes {w : ℕ} (x : BitVec w) : (leBytes x).length = w / 8 := by
  simp [leBytes]

theorem leBytes_injective {w : ℕ} (hw : 8 ∣ w) {x y : BitVec w} (h : leBytes x = leBytes y) :
    x = y := by
  rw [← ofLe_leByte x (n := w / 8) (by omega), ← ofLe_leByte y (n := w / 8) (by omega)]
  refine ofLe_congr fun k hk => ?_
  have hget := congrArg (fun l => l[k]?) h
  simpa [leBytes, hk] using hget

theorem prefixCode_int {w : ℕ} (hw : 8 ∣ w) : PrefixCode (intCode w) (· = ·) := by
  refine .of_length (n := w / 8) ?_ ?_
  · rintro x _ rfl
    exact length_leBytes x
  · rintro x y _ rfl h
    exact leBytes_injective hw h

theorem prefixCode_count : PrefixCode countCode (· = ·) := by
  refine .of_length (n := 8) ?_ ?_
  · rintro n _ ⟨-, rfl⟩
    exact length_leBytes _
  · rintro m n _ ⟨hm, rfl⟩ ⟨hn, h⟩
    have := congrArg BitVec.toNat (leBytes_injective (by norm_num) h)
    rwa [BitVec.toNat_ofNat, BitVec.toNat_ofNat, Nat.mod_eq_of_lt hm, Nat.mod_eq_of_lt hn] at this

theorem prefixCode_version : PrefixCode versionCode (· = ·) := by
  refine .of_length (n := 2) ?_ ?_
  · rintro v _ ⟨x, -, rfl⟩
    exact length_leBytes x
  · rintro v w _ ⟨x, hx, rfl⟩ ⟨y, hy, h⟩
    obtain rfl := leBytes_injective (by norm_num) h
    have hnat : ∀ {v : U32}, tryIntoU16 v = some x → v.toNat = x.toNat := by
      intro v hv
      rw [tryIntoU16] at hv
      split at hv
      case isTrue hlt =>
        rw [← Option.some.inj hv, BitVec.toNat_setWidth, Nat.mod_eq_of_lt hlt]
      case isFalse => cases hv
    exact BitVec.eq_of_toNat_eq ((hnat hx).trans (hnat hy).symm)

theorem prefixCode_hash : PrefixCode hashCode SameHex :=
  .of_length (n := 32) (fun _ _ h => (decodeToSlice_chars h).1) fun _ _ _ => sameHex_of_decode

theorem prefixCode_blueWork :
    PrefixCode blueWorkCode fun a b => SameHex (padEven a) (padEven b) := by
  rintro a b _ _ s t ⟨m, x, hm, hx, rfl⟩ ⟨n, y, hn, hy, rfl⟩ heq
  rw [List.append_assoc, List.append_assoc] at heq
  have hlt : (32 : ℕ) < 2 ^ 64 := by norm_num
  obtain ⟨rfl, hrest⟩ := prefixCode_count ⟨hm.trans_lt hlt, rfl⟩ ⟨hn.trans_lt hlt, rfl⟩ heq
  have hlen := (decodeToSlice_chars hx).1.trans (decodeToSlice_chars hy).1.symm
  obtain ⟨rfl, hst⟩ := List.append_inj hrest hlen
  exact ⟨sameHex_of_decode hx hy, hst⟩

/-! ### The header -/

/-- The fields in the order in which they are written. -/
abbrev Fields := U32 × List (List Str) × Str × Str × Str × U64 × U32 × U64 × U64 × U64 × Str × Str

def headerFields (header : RpcBlockHeader) : Fields :=
  (header.version, header.parents.map RpcBlockLevelParents.parentHashes, header.hashMerkleRoot,
    header.acceptedIdMerkleRoot, header.utxoCommitment, header.timestamp, header.bits, header.nonce,
    header.daaScore, header.blueScore, header.blueWork, header.pruningPoint)

def fieldsCode : Code Fields Byte :=
  versionCode.seq ((Code.counted countCode (Code.counted countCode hashCode)).seq (hashCode.seq
    (hashCode.seq (hashCode.seq ((intCode 64).seq ((intCode 32).seq ((intCode 64).seq
      ((intCode 64).seq ((intCode 64).seq (blueWorkCode.seq hashCode))))))))))

/-- Equal but for the nonce, the timestamp, the case of hexadecimal letters and the digit that
pads the blue work. -/
structure SamePrePow (h h' : RpcBlockHeader) : Prop where
  version : h.version = h'.version
  parents : List.Forall₂ (fun p q => List.Forall₂ SameHex p.parentHashes q.parentHashes)
    h.parents h'.parents
  hashMerkleRoot : SameHex h.hashMerkleRoot h'.hashMerkleRoot
  acceptedIdMerkleRoot : SameHex h.acceptedIdMerkleRoot h'.acceptedIdMerkleRoot
  utxoCommitment : SameHex h.utxoCommitment h'.utxoCommitment
  bits : h.bits = h'.bits
  daaScore : h.daaScore = h'.daaScore
  blueScore : h.blueScore = h'.blueScore
  blueWork : SameHex (padEven h.blueWork) (padEven h'.blueWork)
  pruningPoint : SameHex h.pruningPoint h'.pruningPoint

/-- Equal but for the case of hexadecimal letters and the digit that pads the blue work. -/
structure SameHeader (h h' : RpcBlockHeader) : Prop extends SamePrePow h h' where
  timestamp : h.timestamp = h'.timestamp
  nonce : h.nonce = h'.nonce

theorem prefixCode_header : PrefixCode (fun h => fieldsCode (headerFields h)) SameHeader := by
  have h64 : (8 : ℕ) ∣ 64 := by norm_num
  have h32 : (8 : ℕ) ∣ 32 := by norm_num
  have hfields := prefixCode_version.seq
    ((prefixCode_count.counted (prefixCode_count.counted prefixCode_hash)).seq
      (prefixCode_hash.seq (prefixCode_hash.seq (prefixCode_hash.seq ((prefixCode_int h64).seq
        ((prefixCode_int h32).seq ((prefixCode_int h64).seq ((prefixCode_int h64).seq
          ((prefixCode_int h64).seq (prefixCode_blueWork.seq prefixCode_hash))))))))))
  refine (hfields.map headerFields).mono ?_
  rintro a b ⟨hversion, hparents, hroot, haccepted, hutxo, htimestamp, hbits, hnonce, hdaa, hblue,
    hwork, hpruning⟩
  exact ⟨⟨hversion, (List.forall₂_map_left_iff.mp (List.forall₂_map_right_iff.mp hparents)), hroot,
    haccepted, hutxo, hbits, hdaa, hblue, hwork, hpruning⟩, htimestamp, hnonce⟩

/-! ### What is written -/

/-- A `Vec` has fewer than `2 ^ 64` elements. -/
structure Allocated (header : RpcBlockHeader) : Prop where
  parents : header.parents.length < 2 ^ 64
  hashes : ∀ parent ∈ header.parents, parent.parentHashes.length < 2 ^ 64

theorem HeaderHasher.write_write (hasher : HeaderHasher) (x y : List Byte) :
    (hasher.write x).write y = hasher.write (x ++ y) := by
  rw [write, write, write, List.append_assoc]

theorem writeHash_code {hasher hasher' : HeaderHasher} {field : Str}
    (h : writeHash hasher field = .ok hasher') :
    ∃ z, hashCode field z ∧ hasher' = hasher.write z := by
  obtain ⟨z, hz, h⟩ := Outcome.bind_eq_ok.mp h
  refine ⟨z, ?_, (Outcome.ok.inj h).symm⟩
  rw [hashCode]
  cases hdecode : decodeToSlice (asBytes field) 32 with
  | error e => rw [hdecode] at hz; cases hz
  | ok bytes => rw [hdecode] at hz; rw [Outcome.ok.inj hz]

/-- A loop over a list whose body writes a word for each element. -/
theorem foldlM_code {α : Type} {f : HeaderHasher → α → Outcome Error HeaderHasher}
    {enc : Code α Byte} {as : List α} {hasher hasher' : HeaderHasher}
    (hf : ∀ a ∈ as, ∀ g g', f g a = .ok g' → ∃ z, enc a z ∧ g' = g.write z)
    (h : as.foldlM f hasher = .ok hasher') :
    ∃ z, Code.Concat enc as z ∧ hasher' = hasher.write z := by
  induction as generalizing hasher with
  | nil =>
    obtain rfl : hasher = hasher' := Outcome.ok.inj h
    exact ⟨[], .nil, by rw [HeaderHasher.write, List.append_nil]⟩
  | cons a as ih =>
    rw [List.foldlM_cons] at h
    obtain ⟨g, hg, h⟩ := Outcome.bind_eq_ok.mp h
    obtain ⟨x, hx, rfl⟩ := hf a List.mem_cons_self hasher g hg
    obtain ⟨y, hy, rfl⟩ := ih (fun b hb => hf b (List.mem_cons_of_mem a hb)) h
    exact ⟨x ++ y, .cons hx hy, HeaderHasher.write_write hasher x y⟩

theorem writeParents_code {hasher hasher' : HeaderHasher} {parent : RpcBlockLevelParents}
    (hlen : parent.parentHashes.length < 2 ^ 64) (h : writeParents hasher parent = .ok hasher') :
    ∃ z, Code.counted countCode hashCode parent.parentHashes z ∧ hasher' = hasher.write z := by
  rw [writeParents] at h
  have hhash : ∀ field ∈ parent.parentHashes, ∀ g g', writeHash g field = .ok g' →
      ∃ z, hashCode field z ∧ g' = g.write z := fun _ _ _ _ => writeHash_code
  obtain ⟨y, hy, rfl⟩ := foldlM_code hhash h
  exact ⟨_, ⟨_, y, ⟨hlen, rfl⟩, hy, rfl⟩, HeaderHasher.write_write hasher _ y⟩

theorem writeBlueWork_code {hasher hasher' : HeaderHasher} {blueWork : Str}
    (h : writeBlueWork hasher blueWork = .ok hasher') :
    ∃ z, blueWorkCode blueWork z ∧ hasher' = hasher.write z := by
  rw [writeBlueWork] at h
  split at h
  case isTrue hle =>
    obtain ⟨bytes, hbytes, h⟩ := Outcome.bind_eq_ok.mp h
    refine ⟨_, ⟨((asBytes blueWork).length + 1) / 2, bytes, hle, ?_, rfl⟩, ?_⟩
    · have hpad : asBytes (padEven blueWork) = if (asBytes blueWork).length % 2 = 0
          then asBytes blueWork else asBytes ('0' :: blueWork) := by
        rw [padEven]
        split <;> rfl
      rw [hpad]
      generalize decodeToSlice _ _ = decoded at hbytes
      cases decoded with
      | error e => cases hbytes
      | ok z => rw [Outcome.ok.inj hbytes]
    · rw [← HeaderHasher.write_write]
      exact (Outcome.ok.inj h).symm
  case isFalse => cases h

/-- The serialisation writes a word of the code of the fields. -/
theorem serializeHeader_code {hasher hasher' : HeaderHasher} {header : RpcBlockHeader}
    (hheader : Allocated header) (h : serializeHeader hasher header false = .ok hasher') :
    ∃ z, fieldsCode (headerFields header) z ∧ hasher' = hasher.write z := by
  rw [serializeHeader] at h
  simp only [Bool.false_eq_true, if_false] at h
  obtain ⟨version, hsome, h⟩ := Outcome.bind_eq_ok.mp h
  obtain ⟨g₁, hg₁, h⟩ := Outcome.bind_eq_ok.mp h
  -- each write of the serializer appends the code of its field
  have hlevel : ∀ parent ∈ header.parents, ∀ g g', writeParents g parent = .ok g' →
      ∃ z, Code.counted countCode hashCode parent.parentHashes z ∧ g' = g.write z :=
    fun parent hp _ _ => writeParents_code (hheader.hashes parent hp)
  obtain ⟨parents, hparents, rfl⟩ := foldlM_code hlevel hg₁
  obtain ⟨g₂, hg₂, h⟩ := Outcome.bind_eq_ok.mp h
  obtain ⟨root, hroot, rfl⟩ := writeHash_code hg₂
  obtain ⟨g₃, hg₃, h⟩ := Outcome.bind_eq_ok.mp h
  obtain ⟨accepted, haccepted, rfl⟩ := writeHash_code hg₃
  obtain ⟨g₄, hg₄, h⟩ := Outcome.bind_eq_ok.mp h
  obtain ⟨utxo, hutxo, rfl⟩ := writeHash_code hg₄
  obtain ⟨g₅, hg₅, h⟩ := Outcome.bind_eq_ok.mp h
  obtain ⟨work, hwork, rfl⟩ := writeBlueWork_code hg₅
  obtain ⟨pruning, hpruning, rfl⟩ := writeHash_code h
  have hversion : tryIntoU16 header.version = some version := by
    cases hv : tryIntoU16 header.version with
    | none => rw [hv] at hsome; cases hsome
    | some v => rw [hv] at hsome; rw [Outcome.ok.inj hsome]
  have hlevels : Code.counted countCode (Code.counted countCode hashCode)
      (header.parents.map RpcBlockLevelParents.parentHashes)
      (leBytes (BitVec.ofNat 64 header.parents.length) ++ parents) := by
    refine ⟨_, parents, ⟨?_, ?_⟩, hparents.map, rfl⟩
    · rw [List.length_map]
      exact hheader.parents
    · rw [List.length_map]
  refine ⟨_, ⟨_, _, ⟨version, hversion, rfl⟩, ⟨_, _, hlevels, ⟨root, _, hroot, ⟨accepted, _,
    haccepted, ⟨utxo, _, hutxo, ⟨_, _, rfl, ⟨_, _, rfl, ⟨_, _, rfl, ⟨_, _, rfl, ⟨_, _, rfl,
    ⟨work, pruning, hwork, hpruning, rfl⟩, rfl⟩, rfl⟩, rfl⟩, rfl⟩, rfl⟩, rfl⟩, rfl⟩, rfl⟩, rfl⟩,
    rfl⟩, ?_⟩
  simp only [HeaderHasher.write_write, List.append_assoc]
  rfl

/-- The bytes written determine the header, none of them is a proper prefix of another header's,
and the same holds before the proof of work for all fields but nonce and timestamp, which are
not written there. -/
theorem header_bytes_determine_header (header header' : RpcBlockHeader) (hheader : Allocated header)
    (hheader' : Allocated header') (g g' : HeaderHasher) :
    (serializeHeader .new header false = .ok g → serializeHeader .new header' false = .ok g' →
      (g.data = g'.data → SameHeader header header')
        ∧ (g.data <+: g'.data → g.data = g'.data))
    ∧ (serializeHeader .new header true = .ok g → serializeHeader .new header' true = .ok g' →
      (g.data = g'.data → SamePrePow header header')
        ∧ (g.data <+: g'.data → g.data = g'.data))
    ∧ ∀ nonce timestamp, serializeHeader .new
        { header with nonce := nonce, timestamp := timestamp } true
          = serializeHeader .new header true := by
  have hfull : ∀ {a b : RpcBlockHeader}, Allocated a → Allocated b →
      serializeHeader .new a false = .ok g → serializeHeader .new b false = .ok g' →
      (g.data = g'.data → SameHeader a b) ∧ (g.data <+: g'.data → g.data = g'.data) := by
    intro a b ha hb hg hg'
    obtain ⟨z, hz, rfl⟩ := serializeHeader_code ha hg
    obtain ⟨z', hz', rfl⟩ := serializeHeader_code hb hg'
    refine ⟨fun heq => ?_, prefixCode_header.prefix_free hz hz'⟩
    obtain rfl : z = z' := heq
    exact prefixCode_header.of_eq hz hz'
  refine ⟨hfull hheader hheader', fun hg hg' => ?_, fun nonce timestamp =>
    serializeHeader_congr .new header nonce timestamp⟩
  -- before the proof of work, zeros stand in for the two fields
  have hzero : ∀ h : RpcBlockHeader, serializeHeader .new h true
      = serializeHeader .new { h with nonce := 0, timestamp := 0 } false := fun _ => rfl
  rw [hzero] at hg hg'
  obtain ⟨hsame, hprefix⟩ := hfull (a := { header with nonce := 0, timestamp := 0 })
    (b := { header' with nonce := 0, timestamp := 0 }) ⟨hheader.parents, hheader.hashes⟩
    ⟨hheader'.parents, hheader'.hashes⟩ hg hg'
  refine ⟨fun heq => ?_, hprefix⟩
  obtain ⟨hversion, hparents, hroot, haccepted, hutxo, hbits, hdaa, hblue, hwork, hpruning⟩ :=
    (hsame heq).toSamePrePow
  exact ⟨hversion, hparents, hroot, haccepted, hutxo, hbits, hdaa, hblue, hwork, hpruning⟩

/-- A header, and the same one with capitals and a padded blue work. -/
def lowerHeader : RpcBlockHeader where
  version := 1
  parents := [⟨[List.replicate 64 'a', List.replicate 64 'b']⟩, ⟨[]⟩]
  hashMerkleRoot := List.replicate 64 'c'
  acceptedIdMerkleRoot := List.replicate 64 'd'
  utxoCommitment := List.replicate 64 'e'
  timestamp := 7
  bits := 0x1d00ffff
  nonce := 12
  daaScore := 3
  blueWork := "abc".toList
  pruningPoint := List.replicate 64 'f'
  blueScore := 5

def upperHeader : RpcBlockHeader :=
  { lowerHeader with hashMerkleRoot := List.replicate 64 'C', blueWork := "0ABC".toList }

theorem lower_upper_same :
    serializeHeader .new lowerHeader false = serializeHeader .new upperHeader false
      ∧ SameHeader lowerHeader upperHeader := by
  have hlower : Allocated lowerHeader := ⟨by decide, by decide⟩
  have hupper : Allocated upperHeader := ⟨by decide, by decide⟩
  have hsame : serializeHeader .new lowerHeader false = serializeHeader .new upperHeader false := by
    decide +kernel
  refine ⟨hsame, ?_⟩
  have hok : (match serializeHeader .new lowerHeader false with
      | .ok _ => true
      | _ => false) = true := by decide +kernel
  obtain ⟨g, hg⟩ : ∃ g, serializeHeader .new lowerHeader false = .ok g := by
    split at hok
    · exact ⟨_, rfl⟩
    · cases hok
  exact ((header_bytes_determine_header lowerHeader upperHeader hlower hupper g g).1 hg
    (hsame ▸ hg)).1 rfl
