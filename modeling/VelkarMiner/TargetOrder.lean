/-
The three orders of `Uint256` (`src/target.rs`).

Targets are compared as words, sent as bytes and logged as text.

* `cmp_eq` — the comparison walks the words like a numeral to base `2 ^ 64`;
* `ofDigits_toLeBytes`, `toNat_fromLeBytes`, `compareLex_toLeBytes` — the bytes are the
  digits to base `256`, lowest first, and ordered like the integers from the highest down;
* `cmpStr_of_digits` — lower-case texts of one length are ordered like the integers
  they denote, so the texts of `to_be_hex` are ordered like the targets.

`represents_integer` puts them together.
-/
import VelkarMiner.TargetText

open Bytes Rust

namespace Rust

/-- `str::cmp`: the bytes, first to last. -/
def cmpStr (s t : Str) : Ordering :=
  (asBytes s).compareLex (fun a b => compare a.toNat b.toNat) (asBytes t)

/-- The digits that `{:x}` writes. -/
def HEX_DIGITS : Str := "0123456789abcdef".toList

theorem mem_HEX_DIGITS {c : Char} : c ∈ HEX_DIGITS ↔ ∃ d < 16, hexDigit d = c := by
  have hlist : HEX_DIGITS = (List.range 16).map hexDigit := by decide
  rw [hlist, List.mem_map]
  simp only [List.mem_range]

/-- `9` comes before `a` among the characters as well. -/
theorem compare_hexDigit : ∀ a < 16, ∀ b < 16,
    compare (BitVec.ofNat 8 (hexDigit a).toNat).toNat (BitVec.ofNat 8 (hexDigit b).toNat).toNat
      = compare a b := by decide

theorem allDigits_of_subset {s : Str} (hs : s ⊆ HEX_DIGITS) : AllDigits 16 s := by
  intro c hc
  obtain ⟨d, hd, rfl⟩ := mem_HEX_DIGITS.mp (hs hc)
  rw [toDigit_hexDigit hd]
  rfl

theorem digit_lt_of_subset {s : Str} (hs : s ⊆ HEX_DIGITS) :
    ∀ c ∈ s, (toDigit 16 c).getD 0 < 16 := by
  intro c hc
  obtain ⟨d, hd, rfl⟩ := mem_HEX_DIGITS.mp (hs hc)
  rwa [toDigit_hexDigit hd]

/-- Lower-case numerals of one length are ordered like the integers they denote. -/
theorem cmpStr_of_digits {s t : Str} (hlen : s.length = t.length) (hs : s ⊆ HEX_DIGITS)
    (ht : t ⊆ HEX_DIGITS) : cmpStr s t = compare (digitsValue 16 s) (digitsValue 16 t) := by
  have hbytes : (s.map fun c => BitVec.ofNat 8 c.toNat).compareLex
        (fun a b => compare a.toNat b.toNat) (t.map fun c => BitVec.ofNat 8 c.toNat)
      = s.compareLex (fun a b => compare ((toDigit 16 a).getD 0) ((toDigit 16 b).getD 0)) t := by
    refine DigitOrder.compareLex_map fun a ha b hb => ?_
    obtain ⟨d, hd, rfl⟩ := mem_HEX_DIGITS.mp (hs ha)
    obtain ⟨e, he, rfl⟩ := mem_HEX_DIGITS.mp (ht hb)
    rw [toDigit_hexDigit hd, toDigit_hexDigit he]
    exact compare_hexDigit d hd e he
  rw [cmpStr, asBytes_of_allDigits (allDigits_of_subset hs),
    asBytes_of_allDigits (allDigits_of_subset ht), hbytes]
  exact DigitOrder.compareLex_numerals (by norm_num) hlen (digit_lt_of_subset hs)
    (digit_lt_of_subset ht) fun _ _ _ _ => rfl

theorem fmtHex_subset (k n : ℕ) : fmtHex k n ⊆ HEX_DIGITS := by
  intro c hc
  obtain ⟨i, -, rfl⟩ := List.mem_map.mp hc
  exact mem_HEX_DIGITS.mpr ⟨_, Nat.mod_lt _ (by norm_num), rfl⟩

end Rust

namespace Uint256

/-- Highest byte first, the bytes are ordered like the integers. -/
theorem compareLex_toLeBytes (x y : Uint256) :
    x.toLeBytes.toList.reverse.compareLex (fun a b => compare a.toNat b.toNat)
        y.toLeBytes.toList.reverse = x.cmp y := by
  rw [cmp_eq, ← ofDigits_toLeBytes x, ← ofDigits_toLeBytes y]
  exact DigitOrder.compareLex_reverse (by norm_num) (by simp) (fun a _ => a.isLt)
    (fun b _ => b.isLt) fun _ _ _ _ => rfl

/-- The text of an integer: its 64 digits, highest first. -/
theorem toBeHex_spec (x : Uint256) :
    x.toBeHex.length = 64 ∧ x.toBeHex ⊆ HEX_DIGITS ∧ digitsValue 16 x.toBeHex = x.toNat := by
  have hlt : x.toNat < 16 ^ 64 := lt_of_lt_of_eq x.toNat_lt (by norm_num)
  rw [toBeHex_eq]
  exact ⟨length_fmtHex 64 x.toNat, fmtHex_subset 64 x.toNat, digitsValue_fmtHex hlt⟩

/-- The order of the texts is the order of the targets. -/
theorem cmpStr_toBeHex (x y : Uint256) : cmpStr x.toBeHex y.toBeHex = x.cmp y := by
  obtain ⟨hlen, hdigits, hvalue⟩ := x.toBeHex_spec
  obtain ⟨hlen', hdigits', hvalue'⟩ := y.toBeHex_spec
  rw [cmpStr_of_digits (hlen.trans hlen'.symm) hdigits hdigits', hvalue, hvalue', cmp_eq]

/-- Comparison finds no difference precisely between equal integers. -/
theorem cmp_eq_eq_iff (x y : Uint256) : x.cmp y = .eq ↔ x = y := by
  rw [cmp_eq, compare_eq_iff_eq]
  exact toNat_injective.eq_iff

/-- Words, bytes and text of a `Uint256` are those of one integer, in one order. -/
theorem represents_integer :
    (∀ x y : Uint256, x.cmp y = compare x.toNat y.toNat
      ∧ x.partialCmp y = some (compare x.toNat y.toNat)
      ∧ (x.cmp y = .eq ↔ (x == y) = true)
      ∧ (x ≤ y ↔ x.toNat ≤ y.toNat) ∧ (x < y ↔ x.toNat < y.toNat))
    ∧ (∀ x : Uint256, fromLeBytes x.toLeBytes = x
      ∧ Nat.ofDigits 256 (x.toLeBytes.toList.map BitVec.toNat) = x.toNat)
    ∧ (∀ bytes : Vector Byte 32, (fromLeBytes bytes).toLeBytes = bytes
      ∧ (fromLeBytes bytes).toNat = Nat.ofDigits 256 (bytes.toList.map BitVec.toNat))
    ∧ (∀ x : Uint256, x.toBeHex.length = 64 ∧ x.toBeHex ⊆ HEX_DIGITS
      ∧ digitsValue 16 x.toBeHex = x.toNat)
    ∧ ∀ x y : Uint256, cmpStr x.toBeHex y.toBeHex = x.cmp y := by
  refine ⟨fun x y => ⟨cmp_eq x y, congrArg some (cmp_eq x y), ?_, le_iff x y, lt_iff x y⟩,
    fun x => ⟨fromLeBytes_toLeBytes x, ofDigits_toLeBytes x⟩,
    fun bytes => ⟨toLeBytes_fromLeBytes bytes, toNat_fromLeBytes bytes⟩, toBeHex_spec,
    cmpStr_toBeHex⟩
  rw [cmp_eq_eq_iff, beq_iff_eq]

end Uint256
