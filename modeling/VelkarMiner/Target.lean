/-
Targets (`src/target.rs`).

A target is decoded from the compact bits of a header or computed from the
difficulty a pool announces as a decimal string.  The difficulty is rescaled to
a ratio of integers and `diff1` is divided by it; `u256FromStratumDifficultyStr_text`
says what comes out for every decimal string:

* the decimal point is placed by a 32-bit count of the digits behind it
  (`Decimal.read`);
* a quotient that does not fit is cut to its low 32 bytes, so that the result
  is the quotient modulo `2 ^ 256`.
-/
import VelkarMiner.Rust
import VelkarMiner.Uint256
import Mathlib.Data.Nat.Digits.Lemmas
import Mathlib.Data.Rat.Floor
import Mathlib.Algebra.Order.Floor.Semifield

open Bytes Rust

/-! ### Compact targets -/

namespace Uint256

/-- `x << shift`: each word is shifted into place and its carry added to the next. -/
def shl (x : Uint256) (shift : ℕ) : Uint256 :=
  let wordShift := shift / 64
  let bitShift := shift % 64
  ⟨(List.finRange 4).foldl (fun (ret : Vector U64 4) (i : Fin 4) =>
    let ret : Vector U64 4 := if h : bitShift < 64 ∧ i.val + wordShift < 4 then
        ret.set (i.val + wordShift) (ret[i.val + wordShift] + x.words[i] <<< bitShift)
      else ret
    if h : bitShift > 0 ∧ i.val + wordShift + 1 < 4 then
      ret.set (i.val + wordShift + 1) (ret[i.val + wordShift + 1] + x.words[i] >>> (64 - bitShift))
    else ret) (Vector.replicate 4 0)⟩

end Uint256

def u256FromCompactTarget (bits : U32) : Uint256 :=
  let unshiftedExpt := (bits >>> 24).toNat
  let (mant, expt) :=
    if unshiftedExpt ≤ 3 then ((bits &&& 0xFFFFFF) >>> (8 * (3 - unshiftedExpt)), 0)
    else (bits &&& 0xFFFFFF, 8 * (unshiftedExpt - 3))
  -- the mantissa is signed but may not be negative
  if mant > 0x7FFFFF then ⟨Vector.replicate 4 0⟩
  else (Uint256.fromU64 (mant.setWidth 64)).shl expt

/-! ### Big integers -/

/-- One leading `+` is dropped, unless another follows. -/
def stripPlus : Str → Str
  | '+' :: tail => if tail.head? = some '+' then '+' :: tail else tail
  | s => s

/-- `BigUint::parse_bytes`: `_` is skipped except at the front. -/
def parseBytes (radix : ℕ) (s : Str) : Option ℕ :=
  let s := stripPlus s
  if s = [] ∨ s.head? = some '_' then none
  else ((s.filter (· ≠ '_')).mapM (toDigit radix)).map fun v => Nat.ofDigits radix v.reverse

/-- `BigUint::to_bytes_le`: at least one byte. -/
def toBytesLe (n : ℕ) : List Byte :=
  if n = 0 then [0] else (Nat.digits 256 n).map (BitVec.ofNat 8)

theorem getD_toBytesLe (n i : ℕ) : (toBytesLe n).getD i 0 = BitVec.ofNat 8 (n / 256 ^ i) := by
  rw [toBytesLe]
  split
  case isTrue h =>
    subst h
    cases i <;> simp
  case isFalse h =>
    have hdigit : (Nat.digits 256 n).getD i 0 = n / 256 ^ i % 256 := Nat.getD_digits n i (by omega)
    have hmap : ((Nat.digits 256 n).map (BitVec.ofNat 8)).getD i 0
        = BitVec.ofNat 8 ((Nat.digits 256 n).getD i 0) := by
      simp only [List.getD_eq_getElem?_getD, List.getElem?_map]
      cases (Nat.digits 256 n)[i]? <;> rfl
    rw [hmap, hdigit]
    apply BitVec.eq_of_toNat_eq
    simp

namespace Uint256

/-- The integer `n`, modulo `2 ^ 256`. -/
def ofNat (n : ℕ) : Uint256 := ⟨Vector.ofFn fun i => BitVec.ofNat 64 (n / 2 ^ (64 * i.val))⟩

theorem toNat_ofNat (n : ℕ) : (ofNat n).toNat = n % 2 ^ 256 := by
  simp only [ofNat, toNat, Vector.getElem_ofFn, BitVec.toNat_ofNat]
  omega

theorem toLeBytes_ofNat (n : ℕ) :
    (ofNat n).toLeBytes = Vector.ofFn fun i => BitVec.ofNat 8 (n / 256 ^ i.val) := by
  apply Vector.ext
  intro i hi
  rw [getElem_toLeBytes, Vector.getElem_ofFn]
  apply BitVec.eq_of_getLsbD_eq
  intro j hj
  have hpow : (256 : ℕ) ^ i = 2 ^ (8 * i) := by rw [pow_mul]; norm_num
  simp only [ofNat, Vector.getElem_ofFn]
  rw [getLsbD_leByte, BitVec.getLsbD_ofNat, BitVec.getLsbD_ofNat, Nat.testBit_div_two_pow, hpow,
    Nat.testBit_div_two_pow]
  have hlt : 8 * (i % 8) + j < 64 := by omega
  have hsum : 8 * (i % 8) + j + 64 * (i / 8) = j + 8 * i := by omega
  simp [hj, hlt, hsum]

/-- Copying the low bytes of a big integer keeps it modulo `2 ^ 256`. -/
theorem fromLeBytes_toBytesLe (n : ℕ) :
    fromLeBytes (Vector.ofFn fun i => (toBytesLe n).getD i.val 0) = ofNat n := by
  rw [← fromLeBytes_toLeBytes (ofNat n), toLeBytes_ofNat]
  simp only [getD_toBytesLe]

end Uint256

/-! ### Difficulties -/

/-- The target of difficulty one, as the code writes it. -/
def DIFF1_HEX : Str := "00ffff0000000000000000000000000000000000000000000000000000000000".toList

/-- Whole part, trimmed fraction and the power of ten that clears the fraction.
The exponent is the length cast to `u32`. -/
def splitDifficulty (difficulty : Str) : Str × Str × ℕ :=
  match splitOnce '.' difficulty with
  | some (whole, frac) =>
    let frac := trimEndMatches '0' frac
    if frac = [] then (whole, [], 1) else (whole, frac, 10 ^ (len frac % 2 ^ 32))
  | none => (difficulty, [], 1)

/-- The integer of one side of the point; the empty side is zero. -/
def parsePart (part : Str) : Option ℕ := if part = [] then some 0 else parseBytes 10 part

def u256FromStratumDifficultyStr (difficulty : Str) : Option Uint256 := do
  let difficulty := trim difficulty
  if difficulty = [] ∨ difficulty.head? = some '-' then
    none
  else
    let (whole, frac, scale) := splitDifficulty difficulty
    let wholeValue ← parsePart whole
    let fracValue ← parsePart frac
    let difficultyScaled := wholeValue * scale + fracValue
    if difficultyScaled = 0 then
      none
    else
      let diff1 ← parseBytes 16 DIFF1_HEX
      let bytes := toBytesLe (diff1 * scale / difficultyScaled)
      -- the quotient may have more than 32 bytes; only the low ones are copied
      some (Uint256.fromLeBytes (Vector.ofFn fun i => (bytes.take 32).getD i.val 0))

/-! ### Decimal strings -/

theorem toDigit_ten_range {c : Char} (h : (toDigit 10 c).isSome) :
    48 ≤ c.toNat ∧ c.toNat ≤ 57 := by
  obtain ⟨d, hd⟩ := Option.isSome_iff_exists.mp h
  have hlt := toDigit_lt hd
  rw [toDigit, Option.filter_eq_some_iff] at hd
  have hvalue := hd.1
  split at hvalue
  · assumption
  · split at hvalue
    · simp at hvalue
      omega
    · split at hvalue
      · simp at hvalue
        omega
      · simp at hvalue

theorem digitsValue_replicate_zero (radix k : ℕ) :
    digitsValue radix (List.replicate k '0') = 0 := by
  have hzero : (toDigit radix '0').getD 0 = 0 := by
    have hchar : toDigit radix '0' = (some 0).filter (· < radix) := rfl
    rw [hchar, Option.filter_some]
    split <;> rfl
  rw [digitsValue, List.map_replicate, List.reverse_replicate, hzero]
  exact Nat.ofDigits_replicate_zero

theorem mapM_toDigit {radix : ℕ} {s : Str} (h : AllDigits radix s) :
    s.mapM (toDigit radix) = some (s.map fun c => (toDigit radix c).getD 0) := by
  induction s with
  | nil => rfl
  | cons c s ih =>
    obtain ⟨d, hd⟩ := Option.isSome_iff_exists.mp (h c (by simp))
    rw [List.mapM_cons, hd, ih fun e he => h e (by simp [he]), List.map_cons, hd]
    rfl

theorem parseBytes_of_allDigits {s : Str} (h : AllDigits 10 s) (hs : s ≠ []) :
    parseBytes 10 s = some (digitsValue 10 s) := by
  have hmem : ∀ c : Char, ¬ (toDigit 10 c).isSome → c ∉ s := fun c hc hcs => hc (h c hcs)
  have hplus : stripPlus s = s := by
    unfold stripPlus
    split
    · exact absurd List.mem_cons_self (hmem '+' (by decide))
    · rfl
  have hlead : ¬ (s = [] ∨ s.head? = some '_') := by
    rintro (hnil | hhead)
    · exact hs hnil
    · exact hmem '_' (by decide) (List.mem_of_mem_head? hhead)
  have hfilter : s.filter (· ≠ '_') = s := by
    rw [List.filter_eq_self]
    intro c hc
    have : c ≠ '_' := by
      rintro rfl
      exact hmem '_' (by decide) hc
    simpa using this
  rw [parseBytes, hplus, if_neg hlead, hfilter, mapM_toDigit h, Option.map_some, digitsValue]

theorem parsePart_of_allDigits {s : Str} (h : AllDigits 10 s) :
    parsePart s = some (digitsValue 10 s) := by
  rw [parsePart]
  split
  · next hs => rw [hs]; rfl
  · next hs => exact parseBytes_of_allDigits h hs

/-- A decimal numeral `digits[.digits]`, with a digit somewhere. -/
structure Decimal where
  whole : Str
  frac : Option Str
  allDigits_whole : AllDigits 10 whole
  allDigits_frac : ∀ f ∈ frac, AllDigits 10 f
  nonempty : whole ≠ [] ∨ ∃ f ∈ frac, f ≠ []

namespace Decimal

/-- The numeral as it is written. -/
def text (d : Decimal) : Str :=
  match d.frac with
  | none => d.whole
  | some frac => d.whole ++ '.' :: frac

/-- The digits behind the point. -/
def places (d : Decimal) : Str := d.frac.getD []

/-- The number it denotes. -/
def value (d : Decimal) : ℚ :=
  digitsValue 10 d.whole + digitsValue 10 d.places / 10 ^ d.places.length

/-- The digits behind the point without trailing zeros. -/
def trimmed (d : Decimal) : Str := trimEndMatches '0' d.places

/-- The power of ten the code scales with. -/
def scale (d : Decimal) : ℕ := 10 ^ (d.trimmed.length % 2 ^ 32)

/-- The number the code computes with: the point is placed by a 32-bit count. -/
def read (d : Decimal) : ℚ := digitsValue 10 d.whole + digitsValue 10 d.trimmed / d.scale

theorem allDigits_places (d : Decimal) : AllDigits 10 d.places := by
  rw [places]
  cases h : d.frac with
  | none => simp [AllDigits]
  | some f => exact d.allDigits_frac f h

theorem places_eq (d : Decimal) :
    ∃ k, d.places = d.trimmed ++ List.replicate k '0' :=
  (trimEndMatches_spec '0' d.places).1

theorem allDigits_trimmed (d : Decimal) : AllDigits 10 d.trimmed := by
  intro c hc
  obtain ⟨k, hk⟩ := d.places_eq
  exact d.allDigits_places c (by rw [hk]; simp [hc])

/-- Trailing zeros do not change the number. -/
theorem value_eq (d : Decimal) :
    d.value = digitsValue 10 d.whole + digitsValue 10 d.trimmed / 10 ^ d.trimmed.length := by
  obtain ⟨k, hk⟩ := d.places_eq
  rw [value, hk, digitsValue_append, digitsValue_replicate_zero, List.length_append,
    List.length_replicate]
  push_cast
  rw [pow_add, add_zero, mul_div_mul_right _ _ (by positivity)]

theorem read_eq_value {d : Decimal} (h : d.trimmed.length < 2 ^ 32) : d.read = d.value := by
  rw [value_eq, read, scale, Nat.mod_eq_of_lt h]
  push_cast
  rfl

theorem scale_pos (d : Decimal) : 0 < d.scale := by
  unfold scale
  positivity

theorem read_eq_div (d : Decimal) :
    d.read = ((digitsValue 10 d.whole * d.scale + digitsValue 10 d.trimmed : ℕ) : ℚ) / d.scale := by
  have := d.scale_pos
  rw [read]
  push_cast
  field_simp

theorem read_eq_zero_iff (d : Decimal) : d.read = 0 ↔ d.value = 0 := by
  have hpos : (0 : ℚ) < d.scale := by exact_mod_cast d.scale_pos
  have hw : (0 : ℚ) ≤ digitsValue 10 d.whole := by positivity
  rw [value_eq, read, add_eq_zero_iff_of_nonneg hw (by positivity),
    add_eq_zero_iff_of_nonneg hw (by positivity), div_eq_zero_iff, div_eq_zero_iff]
  simp [hpos.ne']

theorem value_nonneg (d : Decimal) : 0 ≤ d.value := by
  unfold value
  positivity

/-! ### The conversion -/

theorem mem_text {d : Decimal} {c : Char} (h : c ∈ d.text) :
    c = '.' ∨ (toDigit 10 c).isSome := by
  rw [text] at h
  cases hf : d.frac with
  | none =>
    rw [hf] at h
    exact Or.inr (d.allDigits_whole c h)
  | some frac =>
    rw [hf] at h
    rcases List.mem_append.mp h with h | h
    · exact Or.inr (d.allDigits_whole c h)
    · rcases List.mem_cons.mp h with h | h
      · exact Or.inl h
      · exact Or.inr (d.allDigits_frac frac hf c h)

theorem text_ne_nil (d : Decimal) : d.text ≠ [] := by
  rw [text]
  cases hf : d.frac with
  | none =>
    rcases d.nonempty with h | ⟨f, hfrac, h⟩
    · exact h
    · rw [hf] at hfrac
      exact absurd hfrac (by simp)
  | some frac => simp

theorem trim_text (d : Decimal) : trim d.text = d.text := by
  apply trim_eq_self
  intro c hc
  rcases mem_text hc with rfl | h
  · decide
  · have := toDigit_ten_range h
    simp only [isWhitespace]
    simp
    omega

theorem dot_notMem_whole (d : Decimal) : '.' ∉ d.whole := fun h =>
  absurd (d.allDigits_whole '.' h) (by decide)

theorem splitDifficulty_text (d : Decimal) :
    splitDifficulty d.text = (d.whole, d.trimmed, d.scale) := by
  rw [splitDifficulty, text]
  cases hf : d.frac with
  | none =>
    have hplaces : d.places = [] := by rw [places, hf]; rfl
    have htrim : d.trimmed = [] := by rw [trimmed, hplaces]; rfl
    simp only [splitOnce_eq_none d.dot_notMem_whole, scale, htrim]
    rfl
  | some frac =>
    have htrim : trimEndMatches '0' frac = d.trimmed := by rw [trimmed, places, hf]; rfl
    simp only [splitOnce_append d.dot_notMem_whole, htrim, len_of_allDigits d.allDigits_trimmed]
    split
    · next h => simp [scale, h]
    · rfl

end Decimal

/-- The target of difficulty one. -/
def diff1 : ℕ := 0xffff * 2 ^ 232

theorem parseBytes_DIFF1_HEX : parseBytes 16 DIFF1_HEX = some diff1 := by decide +kernel

/-- The target of difficulty `d`, before it has to fit anywhere. -/
def quotient (d : ℚ) : ℕ := ⌊(diff1 : ℚ) / d⌋₊

theorem quotient_div (a b : ℕ) : quotient ((a : ℚ) / b) = diff1 * b / a := by
  rw [quotient, div_div_eq_mul_div]
  have := Nat.floor_div_eq_div (K := ℚ) (diff1 * b) a
  push_cast at this
  exact this

theorem quotient_antitone {a b : ℚ} (ha : 0 < a) (h : a ≤ b) : quotient b ≤ quotient a := by
  apply Nat.floor_le_floor
  gcongr

theorem quotient_le_of_one_le {a : ℚ} (h : 1 ≤ a) : quotient a ≤ diff1 := by
  have := quotient_antitone one_pos h
  simpa [quotient] using this

theorem le_quotient_of_le_one {a : ℚ} (h₀ : 0 < a) (h : a ≤ 1) : diff1 ≤ quotient a := by
  have := quotient_antitone h₀ h
  simpa [quotient] using this

theorem diff1_lt : diff1 < 2 ^ 256 := by
  unfold diff1
  omega

/-- What the conversion returns on every decimal string. -/
theorem u256FromStratumDifficultyStr_text (d : Decimal) :
    u256FromStratumDifficultyStr d.text
      = if d.value = 0 then none else some (Uint256.ofNat (quotient d.read)) := by
  have hminus : d.text.head? ≠ some '-' := by
    intro h
    rcases Decimal.mem_text (List.mem_of_mem_head? h) with h | h
    · exact absurd h (by decide)
    · exact absurd h (by decide)
  have hzero : digitsValue 10 d.whole * d.scale + digitsValue 10 d.trimmed = 0 ↔ d.value = 0 := by
    have hpos : (d.scale : ℚ) ≠ 0 := by exact_mod_cast d.scale_pos.ne'
    rw [← Decimal.read_eq_zero_iff, Decimal.read_eq_div, div_eq_zero_iff]
    constructor
    · intro h
      left
      exact_mod_cast h
    · rintro (h | h)
      · exact_mod_cast h
      · exact absurd h hpos
  have hcopy :
      ∀ n, (Uint256.fromLeBytes (Vector.ofFn fun i => ((toBytesLe n).take 32).getD i.val 0))
      = Uint256.ofNat n := by
    intro n
    rw [← Uint256.fromLeBytes_toBytesLe]
    congr 2
    funext i
    simp [List.getD_eq_getElem?_getD]
  simp only [u256FromStratumDifficultyStr, Decimal.trim_text, Decimal.splitDifficulty_text,
    parsePart_of_allDigits d.allDigits_whole, parsePart_of_allDigits d.allDigits_trimmed,
    parseBytes_DIFF1_HEX, hcopy]
  rw [if_neg (by simp [d.text_ne_nil, hminus])]
  simp only [Option.bind_eq_bind, Option.bind_some, hzero]
  rw [Decimal.read_eq_div, quotient_div]

/-- The conversion is right on `d`: no target for zero, and otherwise the
quotient, saturated at the largest target. -/
def ConvertsExactly (d : Decimal) : Prop :=
  (u256FromStratumDifficultyStr d.text = none ↔ d.value = 0)
    ∧ (0 < d.value → ∃ target, u256FromStratumDifficultyStr d.text = some target
        ∧ target.toNat = min (quotient d.value) (2 ^ 256 - 1))

/-- The quotient fits into 32 bytes, or its low 32 bytes happen to be all ones;
and where the count of places overflows, the misplaced point does not matter. -/
def Fits (d : Decimal) : Prop :=
  d.value = 0
    ∨ if d.trimmed.length < 2 ^ 32 then
        quotient d.value < 2 ^ 256 ∨ quotient d.value % 2 ^ 256 = 2 ^ 256 - 1
      else if digitsValue 10 d.whole = 0 then
        2 ^ 256 ≤ quotient d.value ∧ quotient d.read % 2 ^ 256 = 2 ^ 256 - 1
      else quotient d.read = quotient d.value

theorem convertsExactly_iff_mod (d : Decimal) :
    ConvertsExactly d
      ↔ d.value = 0 ∨ quotient d.read % 2 ^ 256 = min (quotient d.value) (2 ^ 256 - 1) := by
  rw [ConvertsExactly, u256FromStratumDifficultyStr_text]
  by_cases h : d.value = 0
  · simp [h]
  · have hpos : 0 < d.value := lt_of_le_of_ne d.value_nonneg (Ne.symm h)
    simp [h, hpos, Uint256.toNat_ofNat]

/-- A whole part keeps the difficulty away from the small values. -/
theorem quotient_lt_of_whole {d : Decimal} (h : digitsValue 10 d.whole ≠ 0) :
    quotient d.value ≤ diff1 ∧ quotient d.read ≤ diff1 := by
  have hw : (1 : ℚ) ≤ digitsValue 10 d.whole := by exact_mod_cast Nat.one_le_iff_ne_zero.mpr h
  constructor
  · apply quotient_le_of_one_le
    have : (0 : ℚ) ≤ digitsValue 10 d.places / 10 ^ d.places.length := by positivity
    unfold Decimal.value
    linarith
  · apply quotient_le_of_one_le
    have : (0 : ℚ) ≤ digitsValue 10 d.trimmed / d.scale := by positivity
    unfold Decimal.read
    linarith

/-- Without a whole part, a misplaced point makes the difficulty so large that a
quotient within the 256 bits becomes zero. -/
theorem quotient_read_eq_zero {d : Decimal} (hw : digitsValue 10 d.whole = 0) (h₀ : 0 < d.value)
    (hlen : ¬ d.trimmed.length < 2 ^ 32) (hq : quotient d.value < 2 ^ 256) :
    quotient d.read = 0 := by
  set n := d.trimmed.length with hn
  obtain ⟨k, hk⟩ : ∃ k, n = n % 2 ^ 32 + 100 + k := ⟨n - n % 2 ^ 32 - 100, by omega⟩
  have hvalue : d.value = (digitsValue 10 d.trimmed : ℚ) / ((10 ^ n : ℕ) : ℚ) := by
    rw [Decimal.value_eq, hw]
    push_cast
    ring
  have hread : d.read = (digitsValue 10 d.trimmed : ℚ) / d.scale := by
    rw [Decimal.read, hw]
    push_cast
    ring
  have hF : 0 < digitsValue 10 d.trimmed := by
    by_contra h
    rw [hvalue, Nat.eq_zero_of_not_pos h] at h₀
    simp at h₀
  rw [hvalue, quotient_div, Nat.div_lt_iff_lt_mul hF] at hq
  rw [hread, quotient_div, Nat.div_eq_zero_iff]
  right
  have hscale : 10 ^ n = d.scale * 10 ^ 100 * 10 ^ k := by
    rw [Decimal.scale, ← pow_add, ← pow_add, ← hn, ← hk]
  have h256 : 2 ^ 256 ≤ 10 ^ 100 := by norm_num
  have hone : 1 ≤ 10 ^ k := Nat.one_le_pow _ _ (by norm_num)
  have : diff1 * d.scale * 10 ^ 100 < digitsValue 10 d.trimmed * 10 ^ 100 := by
    calc diff1 * d.scale * 10 ^ 100 ≤ diff1 * d.scale * 10 ^ 100 * 10 ^ k :=
          Nat.le_mul_of_pos_right _ hone
      _ = diff1 * 10 ^ n := by rw [hscale]; ring
      _ < 2 ^ 256 * digitsValue 10 d.trimmed := hq
      _ ≤ 10 ^ 100 * digitsValue 10 d.trimmed := Nat.mul_le_mul_right _ h256
      _ = digitsValue 10 d.trimmed * 10 ^ 100 := Nat.mul_comm _ _
  exact Nat.lt_of_mul_lt_mul_right this

theorem value_le_one_of_whole {d : Decimal} (hw : digitsValue 10 d.whole = 0) : d.value ≤ 1 := by
  have : (digitsValue 10 d.places : ℚ) < 10 ^ d.places.length := by
    exact_mod_cast digitsValue_lt d.allDigits_places
  rw [Decimal.value, hw, Nat.cast_zero, zero_add, div_le_one (by positivity)]
  exact this.le

theorem convertsExactly_iff_fits (d : Decimal) : ConvertsExactly d ↔ Fits d := by
  rw [convertsExactly_iff_mod, Fits]
  rcases eq_or_lt_of_le d.value_nonneg with h₀ | h₀
  · simp [h₀.symm]
  apply or_congr_right
  split
  case isTrue hlen =>
    rw [Decimal.read_eq_value hlen]
    omega
  case isFalse hlen =>
    split
    case isTrue hw =>
      constructor
      · intro h
        have hge : 2 ^ 256 ≤ quotient d.value := by
          by_contra hlt
          have hread := quotient_read_eq_zero hw h₀ hlen (by omega)
          have hdiff := le_quotient_of_le_one h₀ (value_le_one_of_whole hw)
          have : 0 < diff1 := by norm_num [diff1]
          omega
        exact ⟨hge, by omega⟩
      · rintro ⟨hge, h⟩
        omega
    case isFalse hw =>
      have hle := quotient_lt_of_whole hw
      have hlt := diff1_lt
      omega

/-- There is no target precisely at zero, the conversion is exact precisely on the difficulties that
fit, and there a larger difficulty never has a larger target. -/
theorem difficulty_to_target_exact (d₁ d₂ : Decimal) :
    (u256FromStratumDifficultyStr d₁.text = none ↔ d₁.value = 0)
      ∧ (ConvertsExactly d₁ ↔ Fits d₁)
      ∧ (Fits d₁ → Fits d₂ → 0 < d₁.value → d₁.value ≤ d₂.value →
        ∃ t₁ t₂, u256FromStratumDifficultyStr d₁.text = some t₁
          ∧ u256FromStratumDifficultyStr d₂.text = some t₂ ∧ t₂ ≤ t₁) := by
  have hnone : u256FromStratumDifficultyStr d₁.text = none ↔ d₁.value = 0 := by
    rw [u256FromStratumDifficultyStr_text]
    split <;> simp [*]
  refine ⟨hnone, convertsExactly_iff_fits d₁, ?_⟩
  intro h₁ h₂ hpos hle
  obtain ⟨t₁, ht₁, hv₁⟩ := ((convertsExactly_iff_fits d₁).mpr h₁).2 hpos
  obtain ⟨t₂, ht₂, hv₂⟩ := ((convertsExactly_iff_fits d₂).mpr h₂).2 (hpos.trans_le hle)
  refine ⟨t₁, t₂, ht₁, ht₂, ?_⟩
  have := quotient_antitone hpos hle
  rw [Uint256.le_iff, hv₁, hv₂]
  omega

/-- `0.001`: the quotient has more than 32 bytes. -/
def smallDifficulty : Decimal where
  whole := ['0']
  frac := some ['0', '0', '1']
  allDigits_whole := by decide
  allDigits_frac := by decide
  nonempty := by simp

/-- `0.001` gets the low 32 bytes of the quotient, not the largest target. -/
theorem small_difficulty_wraps :
    smallDifficulty.text = "0.001".toList ∧ 0 < smallDifficulty.value
      ∧ u256FromStratumDifficultyStr "0.001".toList = some (Uint256.ofNat (15203352 * 2 ^ 232))
      ∧ ¬ ConvertsExactly smallDifficulty := by
  have hvalue : smallDifficulty.value = ((1 : ℕ) : ℚ) / ((1000 : ℕ) : ℚ) := by
    have hwhole : digitsValue 10 smallDifficulty.whole = 0 := by decide
    have hplaces : digitsValue 10 smallDifficulty.places = 1 := by decide
    have hlength : smallDifficulty.places.length = 3 := by decide
    rw [Decimal.value, hwhole, hplaces, hlength]
    norm_num
  have hquotient : quotient smallDifficulty.value = diff1 * 1000 := by
    rw [hvalue, quotient_div, Nat.div_one]
  refine ⟨by decide, ?_, by decide +kernel, ?_⟩
  · rw [hvalue]
    norm_num
  · rw [convertsExactly_iff_mod, Decimal.read_eq_value (by decide +kernel), hquotient, hvalue]
    norm_num [diff1]
