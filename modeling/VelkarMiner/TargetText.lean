/-
Targets as hexadecimal text (`parse_target_hex` of `src/stratum.rs` and
`Uint256::to_be_hex`).

* `toBeHex_eq` — a 256-bit integer is written with its 64 digits;
* `parseTargetHex_of_allDigits` — a text of digits is read as the integer it denotes;
* `target_hex_exact_iff` — the only other texts that are read have plus signs, which the
  integer parser takes in front of the second digit of a byte.
-/
import VelkarMiner.StratumSafety
import VelkarMiner.Searchers

open Bytes Rust

/-! ### Bytes of the integer -/

/-- The digits of `m` to base `256`, lowest first, as far as `n` of them go. -/
theorem ofDigits_div_pow (m n : ℕ) :
    Nat.ofDigits 256 ((List.range n).map fun i => m / 256 ^ i % 256) = m % 256 ^ n := by
  induction n with
  | zero => simp [Nat.mod_one]
  | succ n ih =>
    rw [List.range_succ, List.map_append, Nat.ofDigits_append, ih, List.length_map,
      List.length_range, List.map_singleton, Nat.ofDigits_singleton, Nat.mod_pow_succ]

namespace Uint256

theorem ofNat_toNat (x : Uint256) : ofNat x.toNat = x := by
  apply toNat_injective
  rw [toNat_ofNat, Nat.mod_eq_of_lt x.toNat_lt]

/-- The little-endian value of the bytes. -/
theorem ofDigits_toLeBytes (x : Uint256) :
    Nat.ofDigits 256 (x.toLeBytes.toList.map BitVec.toNat) = x.toNat := by
  have hbytes : x.toLeBytes.toList.map BitVec.toNat
      = (List.range 32).map fun i => x.toNat / 256 ^ i % 256 := by
    have hx : x.toLeBytes = Vector.ofFn fun i => BitVec.ofNat 8 (x.toNat / 256 ^ i.val) := by
      conv_lhs => rw [← ofNat_toNat x]
      exact toLeBytes_ofNat x.toNat
    apply List.ext_getElem
    · simp
    · intro i h₁ h₂
      rw [List.getElem_map, Vector.getElem_toList, List.getElem_map, List.getElem_range]
      simp only [hx, Vector.getElem_ofFn, BitVec.toNat_ofNat]
  rw [hbytes, ofDigits_div_pow, Nat.mod_eq_of_lt]
  exact lt_of_lt_of_eq x.toNat_lt (by norm_num)

theorem toNat_fromLeBytes (b : Vector Byte 32) :
    (fromLeBytes b).toNat = Nat.ofDigits 256 (b.toList.map BitVec.toNat) := by
  rw [← ofDigits_toLeBytes, toLeBytes_fromLeBytes]

end Uint256

/-! ### Writing -/

/-- Two digits for each byte, the highest byte first. -/
theorem flatMap_fmtHex (bytes : List Byte) :
    (bytes.reverse.flatMap fun byte => fmtHex 2 byte.toNat)
      = fmtHex (2 * bytes.length) (Nat.ofDigits 256 (bytes.map BitVec.toNat)) := by
  induction bytes with
  | nil => rfl
  | cons b bytes ih =>
    set v := Nat.ofDigits 256 (bytes.map BitVec.toNat) with hv
    have hb : b.toNat < 256 := b.isLt
    have hvalue : Nat.ofDigits 256 ((b :: bytes).map BitVec.toNat) = b.toNat + 256 * v := by
      rw [List.map_cons, Nat.ofDigits_cons]
    have hsplit : fmtHex (2 * bytes.length + 1 + 1) (b.toNat + 256 * v)
        = fmtHex (2 * bytes.length) v ++ fmtHex 2 b.toNat := by
      have hhigh : (b.toNat + 256 * v) / 16 / 16 = v := by omega
      have hmid : (b.toNat + 256 * v) / 16 % 16 = b.toNat / 16 % 16 := by omega
      have hlow : (b.toNat + 256 * v) % 16 = b.toNat % 16 := by omega
      rw [fmtHex_succ, fmtHex_succ, hhigh, hmid, hlow, fmtHex_succ, fmtHex_succ, List.append_assoc]
      rfl
    rw [List.reverse_cons, List.flatMap_append, ih, List.flatMap_singleton, hvalue, ← hsplit]
    rfl

theorem Uint256.toBeHex_eq (x : Uint256) : x.toBeHex = fmtHex 64 x.toNat := by
  rw [Uint256.toBeHex, flatMap_fmtHex, Uint256.ofDigits_toLeBytes, Vector.length_toList]

theorem allDigits_fmtHex (k n : ℕ) : AllDigits 16 (fmtHex k n) := by
  intro c hc
  obtain ⟨i, -, rfl⟩ := List.mem_map.mp hc
  rw [toDigit_hexDigit (Nat.mod_lt _ (by norm_num))]
  rfl

theorem digitsValue_fmtHex {k n : ℕ} (hn : n < 16 ^ k) : digitsValue 16 (fmtHex k n) = n := by
  have hdigits := allDigits_fmtHex k n
  have hlt := digitsValue_lt hdigits
  have hlower : (fmtHex k n).map Char.toLower = fmtHex k n := by
    apply (List.map_congr_left _).trans (List.map_id _)
    intro c hc
    obtain ⟨i, -, rfl⟩ := List.mem_map.mp hc
    rw [← hexDigit_toDigit (toDigit_hexDigit (Nat.mod_lt (n / 16 ^ i) (by norm_num)))]
    rfl
  have heq := map_toLower_eq_fmtHex hdigits
  rw [hlower, length_fmtHex] at heq
  rw [length_fmtHex] at hlt
  exact fmtHex_injective hlt hn heq.symm

/-! ### Reading digits -/

/-- Two digits are read as the byte they denote. -/
theorem fromStrRadix_pair {a b : Char} {x y : ℕ} (ha : toDigit 16 a = some x)
    (hb : toDigit 16 b = some y) : fromStrRadix 8 16 [a, b] = .ok (x * 16 + y) := by
  have hx := toDigit_lt ha
  have hy := toDigit_lt hb
  have hdigits : AllDigits 16 [a, b] := by
    intro c hc
    rcases List.mem_pair.mp hc with rfl | rfl
    · rw [ha]; rfl
    · rw [hb]; rfl
  have hplus : '+' ∉ [a, b] := fun hmem => absurd (hdigits '+' hmem) (by decide)
  have hvalue : digitsValue 16 [a, b] = x * 16 + y := by
    rw [digitsValue_cons, digitsValue_singleton, ha, hb]
    simp
  rw [fromStrRadix_eq (by norm_num) hdigits (by simp) hplus, hvalue, if_pos (by omega)]

/-- A text of digits is read byte by byte. -/
theorem hexPairs_of_allDigits (n : ℕ) {s : Str} (h : AllDigits 16 s) (hlen : s.length = 2 * n) :
    ∃ bytes, hexPairs n s = .ok bytes ∧ bytes.length = n
      ∧ Nat.ofDigits 256 (bytes.reverse.map BitVec.toNat) = digitsValue 16 s := by
  induction n generalizing s with
  | zero =>
    obtain rfl := List.length_eq_zero_iff.mp hlen
    exact ⟨[], rfl, rfl, rfl⟩
  | succ n ih =>
    rcases s with _ | ⟨a, _ | ⟨b, s⟩⟩
    · simp at hlen
    · simp at hlen
      omega
    · have ha := h a (by simp)
      have hb := h b (by simp)
      obtain ⟨x, hx⟩ := Option.isSome_iff_exists.mp ha
      obtain ⟨y, hy⟩ := Option.isSome_iff_exists.mp hb
      have hxlt := toDigit_lt hx
      have hylt := toDigit_lt hy
      have hs : AllDigits 16 s := fun c hc => h c (by simp [hc])
      have hslen : s.length = 2 * n := by simp at hlen; omega
      obtain ⟨bytes, hread, hbytes, hvalue⟩ := ih hs hslen
      refine ⟨BitVec.ofNat 8 (x * 16 + y) :: bytes, ?_, by rw [List.length_cons, hbytes], ?_⟩
      · rw [hexPairs_cons_cons (utf8Size_of_digit ha) (utf8Size_of_digit hb),
          fromStrRadix_pair hx hy]
        simp only [Outcome.ofExcept, Outcome.ok_bind, hread, Outcome.pure_eq]
      · have hpow : (256 : ℕ) ^ n = 16 ^ s.length := by
          rw [hslen, pow_mul]
          norm_num
        have hbyte : (BitVec.ofNat 8 (x * 16 + y)).toNat = x * 16 + y := by
          rw [BitVec.toNat_ofNat, Nat.mod_eq_of_lt (by omega)]
        rw [List.reverse_cons, List.map_append, Nat.ofDigits_append, hvalue, List.length_map,
          List.length_reverse, hbytes, hpow, List.map_singleton, Nat.ofDigits_singleton, hbyte,
          digitsValue_cons, digitsValue_cons, hx, hy, Option.getD_some, Option.getD_some,
          List.length_cons, pow_succ]
        ring

/-! ### Signs -/

theorem fromStrRadix_of_no_sign {a b : Char} (hplus : a ≠ '+') :
    fromStrRadix 8 16 [a, b] = parseDigits 8 16 0 [a, b] := by
  unfold fromStrRadix
  split
  · rename_i heq
    cases heq
  · rename_i heq
    cases heq
  · rename_i heq
    exact absurd (List.cons.inj heq).1 hplus
  · rfl

/-- A pair is read when the second character is a digit and the first is one or a plus. -/
theorem isPair_iff (a b : Char) :
    IsPair a b ↔ ((toDigit 16 a).isSome ∨ a = '+') ∧ (toDigit 16 b).isSome := by
  by_cases hplus : a = '+'
  -- a leading plus is skipped, and one digit remains
  · subst hplus
    have hparse : fromStrRadix 8 16 ['+', b] = parseDigits 8 16 0 [b] := rfl
    rw [IsPair, hparse, parseDigits]
    cases hb : toDigit 16 b with
    | none => simp
    | some y =>
      have hlt := toDigit_lt hb
      have hfit : 0 * 16 + y < 2 ^ 8 := by omega
      simp only [if_pos hfit, parseDigits]
      simp
  · cases ha : toDigit 16 a with
    | none =>
      have hparse : fromStrRadix 8 16 [a, b] = .error .invalidDigit := by
        rw [fromStrRadix_of_no_sign hplus, parseDigits, ha]
      simp [IsPair, hparse, hplus]
    | some x =>
      cases hb : toDigit 16 b with
      | none =>
        have hlt := toDigit_lt ha
        have hfit : 0 * 16 + x < 2 ^ 8 := by omega
        have hparse : fromStrRadix 8 16 [a, b] = .error .invalidDigit := by
          rw [fromStrRadix_of_no_sign hplus, parseDigits, ha]
          simp only [if_pos hfit, parseDigits, hb]
        simp [IsPair, hparse]
      | some y => simp [IsPair, fromStrRadix_pair ha hb]

/-- Hexadecimal digits, and pluses with an odd number of characters behind them. -/
def SignedDigits : Str → Prop
  | [] => True
  | c :: s => ((toDigit 16 c).isSome ∨ c = '+' ∧ s.length % 2 = 1) ∧ SignedDigits s

theorem utf8Size_of_signed {c : Char} (h : (toDigit 16 c).isSome ∨ c = '+') : c.utf8Size = 1 := by
  rcases h with h | rfl
  · exact utf8Size_of_digit h
  · rfl

/-- In a text of `2 n` characters the pluses stand in front of the pairs. -/
theorem allPairs_iff (n : ℕ) {s : Str} (hlen : s.length = 2 * n) :
    AllPairs n s ↔ SignedDigits s := by
  induction n generalizing s with
  | zero =>
    obtain rfl := List.length_eq_zero_iff.mp hlen
    simp [AllPairs, SignedDigits]
  | succ n ih =>
    rcases s with _ | ⟨a, _ | ⟨b, s⟩⟩
    · simp at hlen
    · simp at hlen
      omega
    · have hslen : s.length = 2 * n := by simp at hlen; omega
      have hodd : (b :: s).length % 2 = 1 := by
        rw [List.length_cons]
        omega
      have heven : ¬ s.length % 2 = 1 := by omega
      rw [AllPairs, SignedDigits, SignedDigits, ih hslen, isPair_iff]
      simp only [hodd, heven, and_true, and_false, or_false]
      constructor
      · rintro ⟨-, -, ⟨ha, hb⟩, hs⟩
        exact ⟨ha, hb, hs⟩
      · rintro ⟨ha, hb, hs⟩
        exact ⟨utf8Size_of_signed ha, utf8Size_of_digit hb, ⟨ha, hb⟩, hs⟩

theorem signedDigits_replicate (k : ℕ) (s : Str) :
    SignedDigits (List.replicate k '0' ++ s) ↔ SignedDigits s := by
  induction k with
  | zero => rfl
  | succ k ih =>
    rw [List.replicate_succ, List.cons_append, SignedDigits, ih]
    exact and_iff_right (Or.inl (by decide))

/-- Without a plus they are digits, all of one byte. -/
theorem allDigits_of_signedDigits {s : Str} (h : SignedDigits s) (hplus : '+' ∉ s) :
    AllDigits 16 s := by
  induction s with
  | nil => simp [AllDigits]
  | cons c s ih =>
    intro d hd
    rcases List.mem_cons.mp hd with rfl | hd
    · rcases h.1 with hc | ⟨rfl, -⟩
      · exact hc
      · exact absurd List.mem_cons_self hplus
    · exact ih h.2 (fun hs => hplus (List.mem_cons_of_mem _ hs)) d hd

theorem len_of_signedDigits {s : Str} (h : SignedDigits s) : len s = s.length := by
  induction s with
  | nil => rfl
  | cons c s ih =>
    have hc : c.utf8Size = 1 := utf8Size_of_signed (h.1.imp_right And.left)
    rw [len_cons, hc, ih h.2, List.length_cons, Nat.add_comm]

/-! ### The parser of targets -/

/-- What is left of a target's text behind the prefix. -/
def targetDigits (text : Str) : Str := strip0x (trim text)

/-- The text is read exactly when it is 1 to 64 hexadecimal digits, as the integer they denote. -/
def ParsesExactly (text : Str) : Prop :=
  ∀ v, parseTargetHex (some (.string text)) = .ok (some v)
    ↔ 1 ≤ (targetDigits text).length ∧ (targetDigits text).length ≤ 64
      ∧ AllDigits 16 (targetDigits text) ∧ v.toNat = digitsValue 16 (targetDigits text)

/-- Up to 64 characters, with a sign that the integer parser accepts. -/
def SignedTarget (text : Str) : Prop :=
  '+' ∈ targetDigits text ∧ (targetDigits text).length ≤ 64 ∧ SignedDigits (targetDigits text)

theorem length_pad64 {hex : Str} (h : hex.length ≤ 64) : (pad64 hex).length = 2 * 32 := by
  rw [pad64, List.length_append, List.length_replicate]
  omega

theorem parseTargetHex_of_allDigits {text : Str} (h₁ : 1 ≤ (targetDigits text).length)
    (h₂ : (targetDigits text).length ≤ 64) (hdigits : AllDigits 16 (targetDigits text)) :
    ∃ v : Uint256, parseTargetHex (some (.string text)) = .ok (some v)
      ∧ v.toNat = digitsValue 16 (targetDigits text) := by
  have hne : targetDigits text ≠ [] := fun hnil => by simp [hnil] at h₁
  have hlen := len_of_allDigits hdigits
  have hzeros : AllDigits 16 (pad64 (targetDigits text)) := by
    intro c hc
    rcases List.mem_append.mp hc with hc | hc
    · rw [List.eq_of_mem_replicate hc]
      decide
    · exact hdigits c hc
  have hpad : digitsValue 16 (pad64 (targetDigits text)) = digitsValue 16 (targetDigits text) := by
    rw [pad64, digitsValue_append, digitsValue_replicate_zero, Nat.zero_mul, Nat.zero_add]
  obtain ⟨bytes, hread, hbytes, hvalue⟩ := hexPairs_of_allDigits 32 hzeros (length_pad64 h₂)
  refine ⟨Uint256.fromLeBytes (Vector.ofFn fun i => bytes.getD (31 - i.val) 0), ?_, ?_⟩
  · have hguard : ¬ (targetDigits text = [] ∨ len (targetDigits text) > 64) := by
      rw [hlen, not_or]
      exact ⟨hne, by omega⟩
    rw [parseTargetHex]
    simp only [Option.bind_some, Value.asStr]
    rw [← targetDigits, if_neg hguard, hread]
  · have hreverse : (Vector.ofFn fun i : Fin 32 => bytes.getD (31 - i.val) 0).toList
        = bytes.reverse := by
      apply List.ext_getElem
      · simp [hbytes]
      · intro i h₁ h₂
        have hi : i < 32 := by simpa using h₁
        rw [Vector.getElem_toList, Vector.getElem_ofFn, List.getElem_reverse,
          List.getD_eq_getElem _ _ (by omega)]
        simp only [hbytes, Nat.reduceSub]
    rw [Uint256.toNat_fromLeBytes, hreverse, hvalue, hpad]

/-- Which texts are read at all. -/
theorem parseTargetHex_isSome_iff (text : Str) :
    (∃ v, parseTargetHex (some (.string text)) = .ok (some v))
      ↔ targetDigits text ≠ [] ∧ (targetDigits text).length ≤ 64
        ∧ SignedDigits (targetDigits text) := by
  rw [parseTargetHex_reads_iff]
  constructor
  · rintro ⟨digits, ⟨t, ht, hne, hlen, rfl⟩, hpairs⟩
    obtain rfl : text = t := by simpa [Value.asStr] using ht
    rw [← targetDigits] at hne hlen hpairs
    have hchars : (targetDigits text).length ≤ 64 := (length_le_len _).trans hlen
    rw [allPairs_iff 32 (length_pad64 hchars), pad64, signedDigits_replicate] at hpairs
    exact ⟨hne, hchars, hpairs⟩
  · rintro ⟨hne, hlen, hsigned⟩
    refine ⟨pad64 (targetDigits text), ⟨text, rfl, hne, ?_, rfl⟩, ?_⟩
    · exact (len_of_signedDigits hsigned).trans_le hlen
    · rw [allPairs_iff 32 (length_pad64 hlen), pad64, signedDigits_replicate]
      exact hsigned

theorem parsesExactly_iff (text : Str) : ParsesExactly text ↔ ¬ SignedTarget text := by
  constructor
  · rintro hexact ⟨hplus, hlen, hsigned⟩
    -- a sign is read but is not a digit
    obtain ⟨v, hv⟩ := (parseTargetHex_isSome_iff text).mpr
      ⟨fun hnil => by simp [hnil] at hplus, hlen, hsigned⟩
    obtain ⟨-, -, hdigits, -⟩ := (hexact v).mp hv
    exact absurd (hdigits '+' hplus) (by decide)
  · intro hplain v
    constructor
    · intro hv
      obtain ⟨hne, hlen, hsigned⟩ := (parseTargetHex_isSome_iff text).mp ⟨v, hv⟩
      have hone : 1 ≤ (targetDigits text).length := List.length_pos_iff.mpr hne
      have hdigits := allDigits_of_signedDigits hsigned fun hplus =>
        hplain ⟨hplus, hlen, hsigned⟩
      obtain ⟨w, hw, hvalue⟩ := parseTargetHex_of_allDigits hone hlen hdigits
      obtain rfl : w = v := by
        rw [hw] at hv
        exact Option.some.inj (Outcome.ok.inj hv)
      exact ⟨hone, hlen, hdigits, hvalue⟩
    · rintro ⟨hone, hlen, hdigits, hv⟩
      obtain ⟨w, hw, hvalue⟩ := parseTargetHex_of_allDigits hone hlen hdigits
      rw [hw, Uint256.toNat_injective (hvalue.trans hv.symm)]

/-- The text that `to_be_hex` writes has no prefix and no blanks. -/
theorem targetDigits_toBeHex (x : Uint256) : targetDigits x.toBeHex = x.toBeHex := by
  have hdigits : AllDigits 16 x.toBeHex := by
    rw [Uint256.toBeHex_eq]
    exact allDigits_fmtHex 64 x.toNat
  have htrim : trim x.toBeHex = x.toBeHex := by
    apply trim_eq_self
    intro c hc
    have hall : ∀ d < 16, isWhitespace (hexDigit d) = false := by decide
    rw [Uint256.toBeHex_eq] at hc
    obtain ⟨i, -, rfl⟩ := List.mem_map.mp hc
    exact hall _ (Nat.mod_lt _ (by norm_num))
  rw [targetDigits, htrim]
  unfold strip0x
  split
  · rename_i s heq
    exact absurd (hdigits 'x' (by rw [heq]; simp)) (by decide)
  · rfl

/-- A written target is read back. -/
theorem parseTargetHex_toBeHex (x : Uint256) :
    parseTargetHex (some (.string x.toBeHex)) = .ok (some x) := by
  have hlen : (targetDigits x.toBeHex).length = 64 := by
    rw [targetDigits_toBeHex, Uint256.toBeHex_eq, length_fmtHex]
  have hdigits : AllDigits 16 (targetDigits x.toBeHex) := by
    rw [targetDigits_toBeHex, Uint256.toBeHex_eq]
    exact allDigits_fmtHex 64 x.toNat
  obtain ⟨v, hv, hvalue⟩ := parseTargetHex_of_allDigits (by omega) (by omega) hdigits
  have hx : x.toNat < 16 ^ 64 := lt_of_lt_of_eq x.toNat_lt (by norm_num)
  rw [targetDigits_toBeHex, Uint256.toBeHex_eq, digitsValue_fmtHex hx] at hvalue
  rw [hv, Uint256.toNat_injective hvalue]

/-- A target text is read exactly as the integer its digits denote, unless it has a sign the
integer parser accepts; and a written target is read back. -/
theorem target_hex_exact_iff (text : Str) :
    (ParsesExactly text ↔ ¬ SignedTarget text)
      ∧ ∀ x : Uint256, parseTargetHex (some (.string x.toBeHex)) = .ok (some x) :=
  ⟨parsesExactly_iff text, parseTargetHex_toBeHex⟩

/-- `+f` is taken for 15. -/
theorem plus_f_is_read :
    parseTargetHex (some (.string "+f".toList)) = .ok (some (Uint256.fromU64 15))
      ∧ ¬ ParsesExactly "+f".toList := by
  refine ⟨by decide +kernel, ?_⟩
  intro hexact
  obtain ⟨-, -, hdigits, -⟩ := (hexact (Uint256.fromU64 15)).mp (by decide +kernel)
  exact absurd (hdigits '+' (by decide)) (by decide)
