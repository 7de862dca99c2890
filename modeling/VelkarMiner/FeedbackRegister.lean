/-
Periods of linear maps over the field of two elements.

When a polynomial kills a vector under a linear map `T`, the power `T ^ e` acts on
that vector like the remainder of `X ^ e`, which a few large multiplications compute.

* `Modulus.pow_represents` — the computed remainder does act like the power;
* `Modulus.minimalPeriod_eq` — a period found out by computing some remainders;
* `exists_iterate_eq` — an orbit of full length meets every nonzero vector.
-/
import VelkarMiner.CarryFree
import Mathlib.Dynamics.PeriodicPts.Lemmas
import Mathlib.Data.Set.Card

open CarryFree

/-! ### Periods -/

section

variable {V : Type*} {f : V → V} {v : V} {N : ℕ}

/-- A period that no quotient by a prime is a period of. -/
theorem minimalPeriod_eq_of_prime (hperiod : f^[N] v = v)
    (hprime : ∀ p, p.Prime → p ∣ N → f^[N / p] v ≠ v) : Function.minimalPeriod f v = N := by
  obtain ⟨c, hc⟩ := Function.IsPeriodicPt.minimalPeriod_dvd (n := N) hperiod
  obtain rfl | hc₁ := eq_or_ne c 1
  · rw [hc, Nat.mul_one]
  · obtain ⟨p, hp, d, rfl⟩ := Nat.exists_prime_and_dvd hc₁
    have hdiv : N / p = Function.minimalPeriod f v * d := by
      rw [hc, show Function.minimalPeriod f v * (p * d)
        = p * (Function.minimalPeriod f v * d) by ring]
      exact Nat.mul_div_cancel_left _ hp.pos
    refine absurd ?_ (hprime p hp ⟨Function.minimalPeriod f v * d, by rw [hc]; ring⟩)
    rw [hdiv]
    exact (Function.isPeriodicPt_minimalPeriod f v).mul_const d

/-- An orbit that is as long as there are nonzero vectors meets all of them. -/
theorem exists_iterate_eq [Finite V] [Zero V] (hzero : f 0 = 0) (hv : v ≠ 0)
    (hperiod : Function.minimalPeriod f v = N) (hcard : Nat.card V = N + 1) {x : V} (hx : x ≠ 0) :
    ∃ k, f^[k] v = x := by
  have hiterate : ∀ k, f^[k] 0 = 0 := fun k => Function.iterate_fixed hzero k
  have hsub : (f^[·] v) '' Set.Iio N ⊆ ({0} : Set V).compl := by
    rintro _ ⟨k, hk, rfl⟩ (hk₀ : f^[k] v = 0)
    -- from zero the orbit could not come back
    have hback : f^[N] v = v := hperiod ▸ Function.iterate_minimalPeriod
    rw [← Nat.sub_add_cancel (Set.mem_Iio.mp hk).le, Function.iterate_add_apply, hk₀,
      hiterate] at hback
    exact hv hback.symm
  have hncard : ((f^[·] v) '' Set.Iio N).ncard = N := by
    rw [(hperiod ▸ Function.iterate_injOn_Iio_minimalPeriod : Set.InjOn _ _).ncard_image]
    simp [Set.ncard_eq_toFinset_card']
  have hcompl : ({0} : Set V).compl.ncard = N := by
    have := Set.ncard_add_ncard_compl ({0} : Set V)
    rw [Set.ncard_singleton, hcard] at this
    show ({0} : Set V)ᶜ.ncard = N
    omega
  have heq := Set.eq_of_subset_of_ncard_le hsub (by rw [hncard, hcompl])
  obtain ⟨k, -, hk⟩ : x ∈ (f^[·] v) '' Set.Iio N := heq ▸ hx
  exact ⟨k, hk⟩

end

/-! ### Remainders -/

/-- A polynomial of degree `size` in digits of `width` bits, and an approximation of its inverse,
which is only there to find quotients with. -/
structure Modulus where
  width : ℕ
  size : ℕ
  poly : ℕ
  quot : ℕ

namespace Modulus

/-- A remainder of `d`, or 0 if the quotient has been missed. -/
def reduce (self : Modulus) (d : ℕ) : ℕ :=
  let high := (2 ^ self.width) ^ self.size
  let q := parity self.width self.size
    (parity self.width (2 * self.size) d / high * self.quot / high)
  let r := parity self.width (2 * self.size + 2) (d + self.poly * q)
  if r < high then r else 0

/-- The remainder of `X ^ e`, by squaring; the fuel bounds the number of bits of `e`. -/
def pow (self : Modulus) : ℕ → ℕ → ℕ
  | 0, _ => 1
  | k + 1, e =>
    let r := self.pow k (e / 2)
    let s := self.reduce (r * r)
    if e % 2 = 0 then s else self.reduce (s * 2 ^ self.width)

/-- A vector as the polynomial `n` of at most `k` digits acts on it, by Horner's rule. -/
def act {V : Type*} [Zero V] [Add V] (w : ℕ) (f : V → V) (v : V) : ℕ → ℕ → V
  | 0, _ => 0
  | k + 1, n => (if n % 2 ^ w = 0 then 0 else v) + f (act w f v k (n / 2 ^ w))

variable {V : Type*} [AddCommGroup V] {m : Modulus} {T : AddMonoid.End V} {v : V}
  {a b d e j k n w : ℕ}

theorem add_apply (S T : AddMonoid.End V) (v : V) : (S + T) v = S v + T v := rfl

theorem mul_apply (S T : AddMonoid.End V) (v : V) : (S * T) v = S (T v) := rfl

theorem act_eq (hw : 0 < w) (hn : Small w 1 n) (hlt : n < (2 ^ w) ^ k) :
    act w T v k n = value w T n v := by
  induction k generalizing n with
  | zero =>
    obtain rfl : n = 0 := by simpa using hlt
    simp [act]
  | succ k ih =>
    obtain ⟨hbit, hrest⟩ := (small_iff hw).mp hn
    have hdigit : ((n % 2 ^ w : ℕ) : AddMonoid.End V) v = if n % 2 ^ w = 0 then 0 else v := by
      interval_cases n % 2 ^ w <;> simp
    rw [act, ih hrest (Nat.div_lt_of_lt_mul (by rwa [← pow_succ'])), value_eq hw n,
      add_apply, hdigit, mul_apply]

/-- The polynomial kills a vector, and the digits are wide enough to multiply remainders. -/
structure Kills (m : Modulus) (T : AddMonoid.End V) (v : V) : Prop where
  two_eq_zero : (2 : AddMonoid.End V) = 0
  width_pos : 0 < m.width
  two_le_size : 2 ≤ m.size
  digits_lt : 2 * m.size < 2 ^ m.width
  poly_small : Small m.width 1 m.poly
  poly_lt : m.poly < (2 ^ m.width) ^ (m.size + 1)
  poly_kills : value m.width T m.poly v = 0

/-- A modulus whose polynomials are given by their bits. -/
def ofBits (width size poly quot : ℕ) : Modulus :=
  ⟨width, size, widen width (size + 1) poly, widen width (size + 1) quot⟩

theorem ofBits_kills {width size poly quot : ℕ} (htwo : (2 : AddMonoid.End V) = 0)
    (hw : 0 < width) (hsize : 2 ≤ size) (hdigits : 2 * size < 2 ^ width)
    (hact : act width T v (size + 1) (widen width (size + 1) poly) = 0) :
    (ofBits width size poly quot).Kills T v where
  two_eq_zero := htwo
  width_pos := hw
  two_le_size := hsize
  digits_lt := hdigits
  poly_small := small_widen hw _ _
  poly_lt := widen_lt hw _ _
  poly_kills := by
    show value width T (widen width (size + 1) poly) v = 0
    rw [← act_eq hw (small_widen hw _ _) (widen_lt hw _ _), hact]

/-- The remainder acts on the vector like a power, unless a quotient has been missed. -/
def Represents (m : Modulus) (T : AddMonoid.End V) (v : V) (a e : ℕ) : Prop :=
  a = 0 ∨ Small m.width 1 a ∧ a < (2 ^ m.width) ^ m.size ∧ value m.width T a v = (T ^ e) v

theorem reduce_zero : m.reduce 0 = 0 := by simp [reduce, parity]

/-- A remainder acts like the polynomial it is the remainder of. -/
theorem reduce_spec (h : m.Kills T v) (hd : Small m.width m.size d)
    (hlt : d < (2 ^ m.width) ^ (2 * m.size)) :
    m.reduce d = 0 ∨ Small m.width 1 (m.reduce d) ∧ m.reduce d < (2 ^ m.width) ^ m.size
      ∧ value m.width T (m.reduce d) v = value m.width T d v := by
  have hw := h.width_pos
  have hdigits := h.digits_lt
  rw [reduce]
  split
  case isFalse => exact .inl rfl
  case isTrue hr =>
    refine .inr ⟨small_parity hw _ _, hr, ?_⟩
    set q := parity m.width m.size _ with hq
    have hqlt : q < (2 ^ m.width) ^ m.size := hq ▸ parity_lt hw _ _
    obtain ⟨hmul, hmulSmall⟩ := value_mul (T := T) hw (by omega) h.poly_small
      (hq ▸ small_parity hw _ _) hqlt
    obtain ⟨hadd, -⟩ := value_add (T := T) hw (by omega) hd hmulSmall
    have hprod : m.poly * q < (2 ^ m.width) ^ (2 * m.size + 1) := by
      calc m.poly * q < (2 ^ m.width) ^ (m.size + 1) * (2 ^ m.width) ^ m.size :=
            Nat.mul_lt_mul'' h.poly_lt hqlt
        _ = (2 ^ m.width) ^ (2 * m.size + 1) := by rw [← pow_add]; congr 1; omega
    have hsum : d + m.poly * q < (2 ^ m.width) ^ (2 * m.size + 2) := by
      have hradix : 2 ≤ 2 ^ m.width := Nat.one_lt_two_pow hw.ne'
      have hle : (2 ^ m.width) ^ (2 * m.size) ≤ (2 ^ m.width) ^ (2 * m.size + 1) :=
        Nat.pow_le_pow_right (by omega) (by omega)
      calc d + m.poly * q < (2 ^ m.width) ^ (2 * m.size + 1) * 2 := by omega
        _ ≤ (2 ^ m.width) ^ (2 * m.size + 1) * 2 ^ m.width := Nat.mul_le_mul_left _ hradix
        _ = (2 ^ m.width) ^ (2 * m.size + 2) := (pow_succ _ _).symm
    rw [value_parity hw h.two_eq_zero hsum, hadd, hmul, add_apply,
      mul_apply, h.poly_kills, map_zero, add_zero]

/-- Remainders multiply like the powers they stand for. -/
theorem represents_mul (h : m.Kills T v) (ha : m.Represents T v a j) (hb : m.Represents T v b k) :
    m.Represents T v (m.reduce (a * b)) (j + k) := by
  have hw := h.width_pos
  obtain rfl | ⟨haSmall, halt, haValue⟩ := ha
  · left
    rw [Nat.zero_mul, reduce_zero]
  obtain rfl | ⟨hbSmall, hblt, hbValue⟩ := hb
  · left
    rw [Nat.mul_zero, reduce_zero]
  have hdigits := h.digits_lt
  obtain ⟨hmul, hmulSmall⟩ := value_mul (T := T) hw (by omega) haSmall hbSmall hblt
  have hlt : a * b < (2 ^ m.width) ^ (2 * m.size) := by
    calc a * b < (2 ^ m.width) ^ m.size * (2 ^ m.width) ^ m.size := Nat.mul_lt_mul'' halt hblt
      _ = (2 ^ m.width) ^ (2 * m.size) := by rw [← pow_add, two_mul]
  obtain hzero | ⟨hsmall, hrlt, hvalue⟩ := reduce_spec h hmulSmall hlt
  · exact .inl hzero
  · refine .inr ⟨hsmall, hrlt, ?_⟩
    calc value m.width T (m.reduce (a * b)) v
        = value m.width T b (value m.width T a v) := by rw [hvalue, hmul]; rfl
      _ = (value m.width T b * T ^ j) v := by rw [haValue]; rfl
      _ = (T ^ j * value m.width T b) v := by
            rw [((commute_value hw T b).pow_left j).eq]
      _ = (T ^ (j + k)) v := by
            rw [mul_apply, hbValue, pow_add, mul_apply]

theorem represents_one (h : m.Kills T v) : m.Represents T v 1 0 := by
  have hw := h.width_pos
  have hsize := h.two_le_size
  refine .inr ⟨small_one hw, Nat.one_lt_pow (by omega) (Nat.one_lt_two_pow hw.ne'), ?_⟩
  rw [value_one hw, pow_zero]

/-- The digit of weight one stands for `X`. -/
theorem represents_radix (h : m.Kills T v) : m.Represents T v (2 ^ m.width) 1 := by
  have hw := h.width_pos
  have hsize := h.two_le_size
  refine .inr ⟨?_, ?_, ?_⟩
  · simpa using small_radix_mul hw (small_one hw)
  · exact lt_self_pow₀ (Nat.one_lt_two_pow hw.ne') (by omega)
  · rw [← Nat.mul_one (2 ^ m.width), value_radix_mul hw, value_one hw, mul_one, pow_one]

theorem pow_represents (h : m.Kills T v) (he : e < 2 ^ k) :
    m.Represents T v (m.pow k e) e := by
  induction k generalizing e with
  | zero =>
    obtain rfl : e = 0 := by simpa using he
    exact represents_one h
  | succ k ih =>
    have hhalf := ih (Nat.div_lt_of_lt_mul (by rwa [← pow_succ']) : e / 2 < 2 ^ k)
    have hsquare := represents_mul h hhalf hhalf
    rw [pow]
    split
    case isTrue heven => rwa [show e / 2 + e / 2 = e by omega] at hsquare
    case isFalse hodd =>
      have hnext := represents_mul h hsquare (represents_radix h)
      rwa [show e / 2 + e / 2 + 1 = e by omega] at hnext

/-- The vector after `e` steps, from the remainder of `X ^ e`. -/
theorem act_pow (h : m.Kills T v) (he : e < 2 ^ k) (hne : m.pow k e ≠ 0) :
    act m.width T v m.size (m.pow k e) = T^[e] v := by
  obtain hzero | ⟨hsmall, hlt, hvalue⟩ := pow_represents h he
  · exact absurd hzero hne
  · rw [act_eq h.width_pos hsmall hlt, hvalue, AddMonoid.End.coe_pow]

/-- A period is minimal when the remainders of `X` to its quotients by primes do not fix
the vector. -/
theorem minimalPeriod_eq {N : ℕ} (h : m.Kills T v) (hN : N < 2 ^ k)
    (hperiod : m.pow k N = 1)
    (hprime : ∀ p, p.Prime → p ∣ N →
      m.pow k (N / p) ≠ 0 ∧ act m.width T v m.size (m.pow k (N / p)) ≠ v) :
    Function.minimalPeriod T v = N := by
  apply minimalPeriod_eq_of_prime
  · have hone := act_pow h hN (by rw [hperiod]; exact one_ne_zero)
    obtain h₁ | ⟨hsmall, hlt, hvalue⟩ := represents_one h
    · exact absurd h₁ one_ne_zero
    · rw [← hone, hperiod, act_eq h.width_pos hsmall hlt, hvalue, pow_zero]
      rfl
  · intro p hp hdvd
    obtain ⟨hne, hact⟩ := hprime p hp hdvd
    rwa [act_pow h ((Nat.div_le_self N p).trans_lt hN) hne] at hact

end Modulus
