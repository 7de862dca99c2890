/-
The orbits of the matrix generator (`src/pow/xoshiro.rs`).

The state of xoshiro256++ steps linearly over the field of two elements.  Powers of
the step are computed modulo its characteristic polynomial, which is checked on one
state; they show that all nonzero states lie on one orbit of length `2 ^ 256 - 1`.
The zero state stays where it is.

* `minimalPeriod_step` — the length of the orbit;
* `exists_steps` — the steps lead from any nonzero state to any other;
* `exists_draws` — so do steps of 256 outputs, which one matrix takes.
-/
import VelkarMiner.HeavyHash
import VelkarMiner.FeedbackRegister
import VelkarMiner.Primality

open Primality

namespace XoShiRo256PlusPlus

/-! ### The states as a vector space -/

/-- The states are added by exclusive or. -/
instance : Add XoShiRo256PlusPlus :=
  ⟨fun a b => ⟨a.s0 ^^^ b.s0, a.s1 ^^^ b.s1, a.s2 ^^^ b.s2, a.s3 ^^^ b.s3⟩⟩

instance : Zero XoShiRo256PlusPlus := ⟨⟨0, 0, 0, 0⟩⟩

theorem add_def (a b : XoShiRo256PlusPlus) :
    a + b = ⟨a.s0 ^^^ b.s0, a.s1 ^^^ b.s1, a.s2 ^^^ b.s2, a.s3 ^^^ b.s3⟩ := rfl

theorem zero_def : (0 : XoShiRo256PlusPlus) = ⟨0, 0, 0, 0⟩ := rfl

instance : Neg XoShiRo256PlusPlus := ⟨id⟩

instance : AddCommGroup XoShiRo256PlusPlus where
  nsmul := nsmulRec
  zsmul := zsmulRec
  add_assoc a b c := by ext1 <;> exact BitVec.xor_assoc ..
  add_comm a b := by ext1 <;> exact BitVec.xor_comm ..
  zero_add a := by ext1 <;> exact BitVec.zero_xor
  add_zero a := by ext1 <;> exact BitVec.xor_zero
  neg_add_cancel a := by ext1 <;> exact BitVec.xor_self

theorem two_eq_zero : (2 : AddMonoid.End XoShiRo256PlusPlus) = 0 := by
  ext1 s
  rw [← one_add_one_eq_two]
  exact neg_add_cancel s

def equivWords :
    XoShiRo256PlusPlus ≃ (Fin (2 ^ 64) × Fin (2 ^ 64)) × Fin (2 ^ 64) × Fin (2 ^ 64) where
  toFun s := ((s.s0.toFin, s.s1.toFin), s.s2.toFin, s.s3.toFin)
  invFun x := ⟨⟨x.1.1⟩, ⟨x.1.2⟩, ⟨x.2.1⟩, ⟨x.2.2⟩⟩
  left_inv _ := rfl
  right_inv _ := rfl

instance : Finite XoShiRo256PlusPlus := Finite.of_equiv _ equivWords.symm

theorem card : Nat.card XoShiRo256PlusPlus = 2 ^ 256 := by
  rw [Nat.card_congr equivWords]
  simp only [Nat.card_prod, Nat.card_fin]
  norm_num

theorem xor_exchange (x x' y y' : U64) :
    x ^^^ x' ^^^ (y ^^^ y') = x ^^^ y ^^^ (x' ^^^ y') := by
  ac_rfl

theorem rotateLeft_xor (x y : U64) (n : ℕ) :
    (x ^^^ y).rotateLeft n = x.rotateLeft n ^^^ y.rotateLeft n := by
  apply BitVec.eq_of_getLsbD_eq
  intro i hi
  simp only [BitVec.getLsbD_xor, BitVec.getLsbD_rotateLeft]
  by_cases h : i < n % 64 <;> simp [h, hi]

theorem u64_snd (s : XoShiRo256PlusPlus) :
    s.u64.2 = ⟨s.s0 ^^^ (s.s3 ^^^ s.s1), s.s1 ^^^ (s.s2 ^^^ s.s0),
      s.s2 ^^^ s.s0 ^^^ s.s1 <<< 17, (s.s3 ^^^ s.s1).rotateLeft 45⟩ := rfl

/-- One step of the state. -/
def step : AddMonoid.End XoShiRo256PlusPlus where
  toFun s := s.u64.2
  map_zero' := rfl
  map_add' a b := by
    rw [u64_snd, u64_snd, u64_snd, add_def, add_def, mk.injEq]
    refine ⟨?_, ?_, ?_, ?_⟩
    · rw [xor_exchange a.s3, xor_exchange a.s0]
    · rw [xor_exchange a.s2, xor_exchange a.s1]
    · rw [BitVec.shiftLeft_xor_distrib, xor_exchange a.s2, xor_exchange]
    · rw [xor_exchange a.s3, rotateLeft_xor]

/-! ### The period -/

/-- The characteristic polynomial of the step, modulo which powers are computed. -/
def modulus : Modulus :=
  Modulus.ofBits 12 256 0x10003c03c3f3ecb1904b4edcf26259f850280002bcefd1a5e9d116f2bb0f0f001
    0x10003c0396f32c298132b61f2778b69e1aa1297eadd5e76b793a906d956fbc489

/-- The state the polynomial is checked on. -/
def unit : XoShiRo256PlusPlus := ⟨1, 0, 0, 0⟩

set_option maxRecDepth 10000 in
theorem modulus_kills : modulus.Kills step unit :=
  Modulus.ofBits_kills two_eq_zero (by norm_num) (by norm_num) (by norm_num) (by decide +kernel)

/-- The prime factors of the period, and those that Lucas's test for them rests on. -/
def primes : List Entry :=
  [⟨5704689200685129054721, 21, [2, 3, 5, 12497, 733803839347]⟩,
    ⟨59649589127497217, 3, [2, 116503103764643]⟩, ⟨116503103764643, 2, [2, 7, 449, 18533742247]⟩,
    ⟨67280421310721, 3, [2, 5, 47, 373, 2998279]⟩, ⟨733803839347, 2, [2, 3, 2203, 55515497]⟩,
    ⟨18533742247, 6, [2, 3, 181, 1896229]⟩, ⟨55515497, 3, [2, 6939437]⟩,
    ⟨6939437, 2, [2, 7, 139, 1783]⟩, ⟨6700417, 5, [2, 3, 17449]⟩, ⟨2998279, 3, [2, 3, 166571]⟩,
    ⟨1896229, 2, [2, 3, 52673]⟩, ⟨274177, 5, [2, 3, 7, 17]⟩, ⟨166571, 2, [2, 5, 16657]⟩,
    ⟨65537, 3, [2]⟩, ⟨52673, 3, [2, 823]⟩, ⟨17449, 14, [2, 3, 727]⟩, ⟨16657, 5, [2, 3, 347]⟩,
    ⟨12497, 3, [2, 11, 71]⟩, ⟨2203, 5, [2, 3, 367]⟩, ⟨1783, 10, [2, 3, 11]⟩,
    ⟨823, 3, [2, 3, 137]⟩, ⟨727, 5, [2, 3, 11]⟩, ⟨641, 3, [2, 5]⟩, ⟨449, 3, [2, 7]⟩,
    ⟨373, 2, [2, 3, 31]⟩, ⟨367, 6, [2, 3, 61]⟩, ⟨347, 2, [2, 173]⟩, ⟨257, 3, [2]⟩,
    ⟨181, 2, [2, 3, 5]⟩, ⟨173, 2, [2, 43]⟩, ⟨139, 2, [2, 3, 23]⟩, ⟨137, 3, [2, 17]⟩,
    ⟨71, 7, [2, 5, 7]⟩, ⟨61, 2, [2, 3, 5]⟩, ⟨47, 5, [2, 23]⟩, ⟨43, 3, [2, 3, 7]⟩,
    ⟨31, 3, [2, 3, 5]⟩, ⟨23, 5, [2, 11]⟩, ⟨17, 3, [2]⟩, ⟨11, 2, [2, 5]⟩, ⟨7, 3, [2, 3]⟩,
    ⟨5, 2, [2]⟩, ⟨3, 2, [2]⟩, ⟨2, 1, []⟩]

theorem primes_checked : Checked 80 primes := by decide +kernel

/-- The prime factors of the period. -/
def factors : List ℕ :=
  [3, 5, 17, 257, 641, 65537, 274177, 6700417, 67280421310721, 59649589127497217,
    5704689200685129054721]

theorem prime_of_mem_factors {p : ℕ} (hp : p ∈ factors) : p.Prime := by
  apply prime_of_checked primes_checked
  revert p
  simp [factors, primes]

theorem factors_prod : factors.prod = 2 ^ 256 - 1 := by norm_num [factors]

/-- No quotient of the period by a prime is a period. -/
theorem pow_factors : modulus.pow 256 (2 ^ 256 - 1) = 1
    ∧ ∀ p ∈ factors, modulus.pow 256 ((2 ^ 256 - 1) / p) ≠ 0
      ∧ Modulus.act modulus.width step unit modulus.size
        (modulus.pow 256 ((2 ^ 256 - 1) / p)) ≠ unit := by
  decide +kernel

theorem minimalPeriod_step : Function.minimalPeriod step unit = 2 ^ 256 - 1 := by
  apply Modulus.minimalPeriod_eq (k := 256) modulus_kills (by norm_num) pow_factors.1
  intro p hp hdvd
  have hmem : p ∈ factors := mem_of_prime_dvd (j := 1) (fun q hq => prime_of_mem_factors hq) hp
    hdvd (by rw [pow_one, factors_prod])
  exact pow_factors.2 p hmem

/-! ### The orbits -/

theorem skip_eq (s : XoShiRo256PlusPlus) (n : ℕ) : s.skip n = step^[n] s := by
  induction n with
  | zero => rfl
  | succ n ih =>
    rw [skip, ih, Function.iterate_succ_apply']
    rfl

variable {a b : XoShiRo256PlusPlus}

/-- Every nonzero state is on the orbit of `unit`. -/
theorem exists_steps_unit (ha : a ≠ 0) : ∃ k, step^[k] unit = a := by
  apply exists_iterate_eq (N := 2 ^ 256 - 1) (map_zero step) (by decide) minimalPeriod_step _ ha
  rw [card]
  norm_num

theorem isPeriodicPt (a : XoShiRo256PlusPlus) : Function.IsPeriodicPt step (2 ^ 256 - 1) a := by
  obtain rfl | ha := eq_or_ne a 0
  · exact Function.iterate_fixed (map_zero step) _
  · obtain ⟨k, rfl⟩ := exists_steps_unit ha
    have hunit := Function.isPeriodicPt_minimalPeriod step unit
    rw [minimalPeriod_step] at hunit
    exact hunit.apply_iterate k

theorem exists_steps (ha : a ≠ 0) (hb : b ≠ 0) : ∃ k, step^[k] a = b := by
  obtain ⟨i, rfl⟩ := exists_steps_unit ha
  obtain ⟨j, rfl⟩ := exists_steps_unit hb
  -- once around the orbit is as many steps as the period
  refine ⟨j + (2 ^ 256 - 2) * i, ?_⟩
  have hround : j + (2 ^ 256 - 2) * i + i = j + (2 ^ 256 - 1) * i := by ring
  rw [← Function.iterate_add_apply, hround, Function.iterate_add_apply,
    (isPeriodicPt unit).mul_const i]

/-- The matrices drawn from a nonzero state lead to every nonzero state, since the 256 steps of
one draw are prime to the period. -/
theorem exists_draws (ha : a ≠ 0) (hb : b ≠ 0) : ∃ n, step^[256 * n] a = b := by
  obtain ⟨k, rfl⟩ := exists_steps ha hb
  refine ⟨2 ^ 248 * k, ?_⟩
  have hround : 256 * (2 ^ 248 * k) = k + (2 ^ 256 - 1) * k := by ring
  rw [hround, Function.iterate_add_apply, (isPeriodicPt a).mul_const k]

theorem new_surjective : Function.Surjective new := by
  intro s
  exact ⟨⟨#v[s.s0, s.s1, s.s2, s.s3]⟩, rfl⟩

theorem new_eq_zero_iff {hash : Hash} : new hash = 0 ↔ hash = ⟨Vector.replicate 4 0⟩ := by
  constructor
  · intro h
    rw [new, zero_def, mk.injEq] at h
    obtain ⟨h0, h1, h2, h3⟩ := h
    apply Uint256.ext
    apply Vector.ext
    intro i hi
    interval_cases i
    · exact h0
    · exact h1
    · exact h2
    · exact h3
  · rintro rfl
    rfl

end XoShiRo256PlusPlus
