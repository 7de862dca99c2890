/-
Polynomials over the field of two elements, as numbers with wide digits.

A number stands for the polynomial whose coefficients are its digits of `w` bits,
and only their parity counts.  As long as no digit overflows, adding and multiplying
numbers adds and multiplies polynomials, so that the arithmetic of large numbers
does it in a few operations.

* `value` — the value of a polynomial in a ring of characteristic two;
* `value_add`, `value_mul` — sums and products without a carry;
* `value_parity` — the digits may be reduced to their parities.
-/
import Mathlib.Data.Nat.Digits.Defs
import Mathlib.Tactic

namespace CarryFree

variable {R : Type*} [Ring R] {T : R} {w k l m n : ℕ}

/-- The value at `T` of the polynomial a number stands for. -/
def value (w : ℕ) (T : R) (n : ℕ) : R := Nat.ofDigits T (Nat.digits (2 ^ w) n)

/-- No digit is above `k`. -/
def Small (w k n : ℕ) : Prop := ∀ d ∈ Nat.digits (2 ^ w) n, d ≤ k

@[simp] theorem value_zero : value w T 0 = 0 := by
  rw [value, Nat.digits_zero]
  rfl

@[simp] theorem small_zero : Small w k 0 := by simp [Small]

theorem value_eq (hw : 0 < w) (n : ℕ) :
    value w T n = ((n % 2 ^ w : ℕ) : R) + T * value w T (n / 2 ^ w) := by
  obtain rfl | hn := Nat.eq_zero_or_pos n
  · simp
  · rw [value, Nat.digits_def' (Nat.one_lt_two_pow hw.ne') hn]
    rfl

theorem small_iff (hw : 0 < w) : Small w k n ↔ n % 2 ^ w ≤ k ∧ Small w k (n / 2 ^ w) := by
  obtain rfl | hn := Nat.eq_zero_or_pos n
  · simp
  · rw [Small, Nat.digits_def' (Nat.one_lt_two_pow hw.ne') hn, List.forall_mem_cons, Small]

theorem Small.mono (h : Small w k n) (hkl : k ≤ l) : Small w l n :=
  fun d hd => (h d hd).trans hkl

/-- Induction on the digits of a number, from the lowest one up. -/
theorem digits_induction {P : ℕ → Prop} (hw : 0 < w) (hzero : P 0)
    (hdigit : ∀ n, P (n / 2 ^ w) → P n) (n : ℕ) : P n := by
  induction n using Nat.strong_induction_on with
  | _ n ih =>
    obtain rfl | hn := Nat.eq_zero_or_pos n
    · exact hzero
    · exact hdigit n (ih _ (Nat.div_lt_self hn (Nat.one_lt_two_pow hw.ne')))

theorem value_one (hw : 0 < w) : value w T 1 = 1 := by
  have hone : 1 < 2 ^ w := Nat.one_lt_two_pow hw.ne'
  rw [value_eq hw, Nat.mod_eq_of_lt hone, Nat.div_eq_of_lt hone]
  simp

theorem small_one (hw : 0 < w) : Small w 1 1 := by
  have hone : 1 < 2 ^ w := Nat.one_lt_two_pow hw.ne'
  rw [small_iff hw, Nat.mod_eq_of_lt hone, Nat.div_eq_of_lt hone]
  exact ⟨le_rfl, small_zero⟩

/-- A polynomial in `T` commutes with `T`. -/
theorem commute_value (hw : 0 < w) (T : R) (n : ℕ) : Commute T (value w T n) := by
  induction n using digits_induction hw with
  | hzero => simp
  | hdigit n ih =>
    rw [value_eq hw]
    exact (Nat.commute_cast T _).add_right ((Commute.refl T).mul_right ih)

/-! ### Sums and products -/

/-- A sum whose digits do not overflow. -/
theorem value_add (hw : 0 < w) (hkl : k + l < 2 ^ w) (hm : Small w k m) (hn : Small w l n) :
    value w T (m + n) = value w T m + value w T n ∧ Small w (k + l) (m + n) := by
  induction m using digits_induction hw generalizing n with
  | hzero => simpa using hn.mono (Nat.le_add_left l k)
  | hdigit m ih =>
    obtain ⟨hm₀, hm⟩ := (small_iff hw).mp hm
    obtain ⟨hn₀, hn⟩ := (small_iff hw).mp hn
    obtain ⟨hvalue, hsmall⟩ := ih hm hn
    have hlt : m % 2 ^ w + n % 2 ^ w < 2 ^ w := by omega
    have hmod : (m + n) % 2 ^ w = m % 2 ^ w + n % 2 ^ w := by
      rw [Nat.add_mod, Nat.mod_eq_of_lt hlt]
    have hdiv : (m + n) / 2 ^ w = m / 2 ^ w + n / 2 ^ w := by
      rw [Nat.add_div (by positivity), if_neg (by omega), Nat.add_zero]
    constructor
    · rw [value_eq hw (m + n), value_eq hw m, value_eq hw n, hmod, hdiv, hvalue]
      push_cast
      noncomm_ring
    · rw [small_iff hw, hmod, hdiv]
      exact ⟨by omega, hsmall⟩

theorem value_radix_mul (hw : 0 < w) (n : ℕ) : value w T (2 ^ w * n) = T * value w T n := by
  rw [value_eq hw, Nat.mul_mod_right, Nat.mul_div_cancel_left n (by positivity)]
  simp

theorem small_radix_mul (hw : 0 < w) (h : Small w k n) : Small w k (2 ^ w * n) := by
  rw [small_iff hw, Nat.mul_mod_right, Nat.mul_div_cancel_left n (by positivity)]
  exact ⟨Nat.zero_le k, h⟩

theorem value_mul_bit (h : n ≤ 1) (m : ℕ) : value w T (m * n) = n * value w T m := by
  interval_cases n <;> simp

theorem small_mul_bit (h : n ≤ 1) (hm : Small w k m) : Small w k (m * n) := by
  interval_cases n
  · simp
  · simpa using hm

/-- A product whose digits do not overflow: they are sums of at most `l` products of bits. -/
theorem value_mul (hw : 0 < w) (hl : l < 2 ^ w) (hm : Small w 1 m) (hn : Small w 1 n)
    (hlength : n < (2 ^ w) ^ l) :
    value w T (m * n) = value w T n * value w T m ∧ Small w l (m * n) := by
  induction l generalizing n with
  | zero =>
    obtain rfl : n = 0 := by simpa using hlength
    simp
  | succ l ih =>
    obtain ⟨hn₀, hn⟩ := (small_iff hw).mp hn
    obtain ⟨hvalue, hsmall⟩ := ih (by omega) hn
      (Nat.div_lt_of_lt_mul (by rwa [← pow_succ']))
    have hsplit : m * n = m * (n % 2 ^ w) + 2 ^ w * (m * (n / 2 ^ w)) := by
      calc m * n = m * (n % 2 ^ w + 2 ^ w * (n / 2 ^ w)) := by rw [Nat.mod_add_div]
        _ = m * (n % 2 ^ w) + 2 ^ w * (m * (n / 2 ^ w)) := by ring
    obtain ⟨hadd, hsmall⟩ := value_add (T := T) hw (by omega) (small_mul_bit hn₀ hm)
      (small_radix_mul hw hsmall)
    rw [hsplit]
    refine ⟨?_, by rwa [Nat.add_comm l 1]⟩
    rw [hadd, value_mul_bit hn₀, value_radix_mul hw, hvalue, value_eq hw n]
    noncomm_ring

/-! ### Parities -/

/-- The number with `l` digits that are all 1. -/
def ones (w l : ℕ) : ℕ := ((2 ^ w) ^ l - 1) / (2 ^ w - 1)

/-- The parities of the lowest `l` digits. -/
def parity (w l n : ℕ) : ℕ := n &&& ones w l

theorem ones_succ (hw : 0 < w) (l : ℕ) : ones w (l + 1) = 1 + 2 ^ w * ones w l := by
  have hradix : 2 ≤ 2 ^ w := Nat.one_lt_two_pow hw.ne'
  rw [ones, ones, ← Nat.geomSum_eq hradix, ← Nat.geomSum_eq hradix, Finset.sum_range_succ',
    Finset.mul_sum, pow_zero, Nat.add_comm]
  simp only [pow_succ']

theorem parity_mod (hw : 0 < w) (l n : ℕ) : parity w (l + 1) n % 2 ^ w = n % 2 ^ w % 2 := by
  have hone : 1 < 2 ^ w := Nat.one_lt_two_pow hw.ne'
  rw [parity, ones_succ hw, Nat.and_mod_two_pow, Nat.add_mul_mod_self_left, Nat.mod_eq_of_lt hone,
    Nat.and_one_is_mod]

theorem parity_div (hw : 0 < w) (l n : ℕ) :
    parity w (l + 1) n / 2 ^ w = parity w l (n / 2 ^ w) := by
  have hone : 1 < 2 ^ w := Nat.one_lt_two_pow hw.ne'
  rw [parity, ones_succ hw, Nat.and_div_two_pow, Nat.add_mul_div_left _ _ (by positivity),
    Nat.div_eq_of_lt hone, Nat.zero_add, parity]

theorem small_parity (hw : 0 < w) (l n : ℕ) : Small w 1 (parity w l n) := by
  induction l generalizing n with
  | zero => simp [parity, ones]
  | succ l ih =>
    rw [small_iff hw, parity_mod hw, parity_div hw]
    exact ⟨by omega, ih _⟩

theorem parity_lt (hw : 0 < w) (l n : ℕ) : parity w l n < (2 ^ w) ^ l := by
  have hradix : 2 ≤ 2 ^ w := Nat.one_lt_two_pow hw.ne'
  have hpos : 0 < (2 ^ w) ^ l := by positivity
  calc parity w l n ≤ ones w l := Nat.and_le_right
    _ ≤ (2 ^ w) ^ l - 1 := Nat.div_le_self ..
    _ < (2 ^ w) ^ l := by omega

/-- In characteristic two only the parities of the digits count. -/
theorem value_parity (hw : 0 < w) (htwo : (2 : R) = 0) (hlength : n < (2 ^ w) ^ l) :
    value w T (parity w l n) = value w T n := by
  induction l generalizing n with
  | zero =>
    obtain rfl : n = 0 := by simpa using hlength
    simp [parity, ones]
  | succ l ih =>
    have hcast : ∀ d : ℕ, ((d % 2 : ℕ) : R) = d := by
      intro d
      conv_rhs => rw [← Nat.mod_add_div d 2]
      push_cast
      rw [htwo, zero_mul, add_zero]
    have hlength' : n / 2 ^ w < (2 ^ w) ^ l := Nat.div_lt_of_lt_mul (by rwa [← pow_succ'])
    rw [value_eq hw, parity_mod hw, parity_div hw, ih hlength', hcast, ← value_eq hw]

/-! ### Wide digits -/

/-- The bits of a number as digits of `w` bits, the lowest `k` of them. -/
def widen (w : ℕ) : ℕ → ℕ → ℕ
  | 0, _ => 0
  | k + 1, n => n % 2 + 2 ^ w * widen w k (n / 2)

theorem widen_mod (hw : 0 < w) (k n : ℕ) : widen w (k + 1) n % 2 ^ w = n % 2 := by
  have hone : 1 < 2 ^ w := Nat.one_lt_two_pow hw.ne'
  rw [widen, Nat.add_mul_mod_self_left, Nat.mod_eq_of_lt (by omega)]

theorem widen_div (hw : 0 < w) (k n : ℕ) : widen w (k + 1) n / 2 ^ w = widen w k (n / 2) := by
  have hone : 1 < 2 ^ w := Nat.one_lt_two_pow hw.ne'
  rw [widen, Nat.add_mul_div_left _ _ (by positivity), Nat.div_eq_of_lt (by omega), Nat.zero_add]

theorem small_widen (hw : 0 < w) (k n : ℕ) : Small w 1 (widen w k n) := by
  induction k generalizing n with
  | zero => simp [widen]
  | succ k ih =>
    rw [small_iff hw, widen_mod hw, widen_div hw]
    exact ⟨by omega, ih _⟩

theorem widen_lt (hw : 0 < w) (k n : ℕ) : widen w k n < (2 ^ w) ^ k := by
  induction k generalizing n with
  | zero => simp [widen]
  | succ k ih =>
    rw [pow_succ, ← Nat.div_lt_iff_lt_mul (by positivity), widen_div hw]
    exact ih _

end CarryFree
