/-
Primes by Lucas's test.

A number `p` is prime when some `root` has order `p - 1` modulo `p`, and that takes
one power for each prime factor of `p - 1`.  Those factors have entries of their own
later in the same table, down to the one of 2, which has no factors.

* `powMod` — powers by squaring;
* `prime_of_checked` — every entry of a table that passes the check is a prime.
-/
import Mathlib.NumberTheory.LucasPrimality
import Mathlib.Tactic

namespace Primality

/-- The remainder of `a ^ e`, by squaring; the fuel bounds the number of bits of `e`. -/
def powMod (n a : ℕ) : ℕ → ℕ → ℕ
  | 0, _ => 1 % n
  | k + 1, e =>
    let r := powMod n a k (e / 2)
    let s := r * r % n
    if e % 2 = 0 then s else s * a % n

theorem cast_powMod {n a k e : ℕ} (he : e < 2 ^ k) :
    (powMod n a k e : ZMod n) = (a : ZMod n) ^ e := by
  induction k generalizing e with
  | zero =>
    obtain rfl : e = 0 := by simpa using he
    simp [powMod]
  | succ k ih =>
    have hhalf := ih (Nat.div_lt_of_lt_mul (by rwa [← pow_succ']) : e / 2 < 2 ^ k)
    have hsquare : ((powMod n a k (e / 2) * powMod n a k (e / 2) % n : ℕ) : ZMod n)
        = (a : ZMod n) ^ (e / 2 + e / 2) := by
      rw [ZMod.natCast_mod, Nat.cast_mul, hhalf, pow_add]
    rw [powMod]
    split
    case isTrue heven => rwa [show e / 2 + e / 2 = e by omega] at hsquare
    case isFalse hodd =>
      rw [ZMod.natCast_mod, Nat.cast_mul, hsquare, ← pow_succ,
        show e / 2 + e / 2 + 1 = e by omega]

/-- What Lucas's test needs to know about a prime. -/
structure Entry where
  p : ℕ
  root : ℕ
  factors : List ℕ

/-- Lucas's test in numbers of `k` bits: the listed factors are all of `p - 1`, since it divides
a power of their product. -/
def Entry.Passes (k : ℕ) (self : Entry) : Prop :=
  self.p < 2 ^ k ∧ self.p - 1 ∣ self.factors.prod ^ k
    ∧ powMod self.p self.root k (self.p - 1) = 1
    ∧ ∀ q ∈ self.factors, powMod self.p self.root k ((self.p - 1) / q) % self.p ≠ 1 % self.p

instance (k : ℕ) (self : Entry) : Decidable (self.Passes k) :=
  inferInstanceAs (Decidable (_ ∧ _ ∧ _ ∧ _))

/-- Every entry passes, and its factors have entries after it. -/
def Checked (k : ℕ) : List Entry → Prop
  | [] => True
  | e :: table => Checked k table ∧ (∀ q ∈ e.factors, q ∈ table.map Entry.p) ∧ e.Passes k

instance decidableChecked (k : ℕ) : (table : List Entry) → Decidable (Checked k table)
  | [] => .isTrue trivial
  | e :: table =>
    have := decidableChecked k table
    inferInstanceAs (Decidable (Checked k table ∧ _ ∧ e.Passes k))

variable {k : ℕ} {e : Entry} {table : List Entry}

theorem mem_of_prime_dvd {factors : List ℕ} (h : ∀ q ∈ factors, q.Prime) {p n j : ℕ}
    (hp : p.Prime) (hpn : p ∣ n) (hn : n ∣ factors.prod ^ j) : p ∈ factors := by
  have hprod : p ∣ factors.prod := hp.dvd_of_dvd_pow (hpn.trans hn)
  obtain ⟨q, hq, hpq⟩ := hp.prime.dvd_prod_iff.mp hprod
  rwa [(Nat.prime_dvd_prime_iff_eq hp (h q hq)).mp hpq]

theorem Entry.Passes.prime (h : e.Passes k) (hfactors : ∀ q ∈ e.factors, q.Prime) :
    e.p.Prime := by
  obtain ⟨hlt, hall, hone, hne⟩ := h
  apply lucas_primality e.p (e.root : ZMod e.p)
  · rw [← cast_powMod (by omega : e.p - 1 < 2 ^ k), hone, Nat.cast_one]
  · intro q hq hdvd hpow
    have hquot : (e.p - 1) / q < 2 ^ k := (Nat.div_le_self _ _).trans_lt (by omega)
    apply hne q (mem_of_prime_dvd hfactors hq hdvd hall)
    have hcast : (powMod e.p e.root k ((e.p - 1) / q) : ZMod e.p) = (1 : ℕ) := by
      rw [cast_powMod hquot, hpow, Nat.cast_one]
    exact (ZMod.natCast_eq_natCast_iff' _ _ e.p).mp hcast

theorem prime_of_checked (h : Checked k table) : ∀ p ∈ table.map Entry.p, p.Prime := by
  induction table with
  | nil => simp
  | cons e table ih =>
    obtain ⟨hrest, hfactors, hpasses⟩ := h
    have hprimes := ih hrest
    rw [List.map_cons, List.forall_mem_cons]
    exact ⟨hpasses.prime fun q hq => hprimes q (hfactors q hq), hprimes⟩

end Primality
