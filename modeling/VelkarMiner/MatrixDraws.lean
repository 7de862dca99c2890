/-
The retry loop of `Matrix::generate` (`src/pow/heavy_hash.rs`).

A matrix takes 256 outputs of the generator.  From the all-zero seed every draw is the
all-zero matrix, and the loop never ends.  From any other seed the draws run through
every state but zero, so that they find a matrix of full rank when there is one.

* `generate_dom_iff` — when the loop returns;
* `State.fromStratum_dom` — when a job of the pool is set up.
-/
import VelkarMiner.XoshiroPeriod
import VelkarMiner.Pow

namespace Matrix64

open XoShiRo256PlusPlus

variable {computeRank : Matrix64 → ℕ} {hash hash' : Hash}

theorem generatorAt_eq (hash : Hash) (n : ℕ) :
    generatorAt hash n = step^[256 * n] (new hash) := by
  induction n with
  | zero => rfl
  | succ n ih =>
    rw [generatorAt, ih, Nat.mul_succ, Nat.add_comm, Function.iterate_add_apply]
    exact skip_eq _ 256

/-- The all-zero matrix. -/
def zero : Matrix64 := ⟨Vector.replicate 64 (Vector.replicate 64 0)⟩

theorem skip_zero (n : ℕ) : skip 0 n = 0 := by
  rw [skip_eq, Function.iterate_fixed (map_zero step)]

/-- The all-zero state draws the all-zero matrix. -/
theorem randMatrixNoRankCheck_zero : (randMatrixNoRankCheck 0).1 = zero := by
  have hentry : ∀ shift : ℕ, ((u64 0).1 >>> shift &&& 0x0F#64).setWidth 16 = (0 : U16) := by
    intro shift
    rw [show (u64 0).1 = 0 from rfl]
    simp
  simp only [randMatrixNoRankCheck, skip_zero, hentry, zero, mk.injEq]
  ext i hi j hj
  simp

theorem draw_replicate_zero (n : ℕ) : draw ⟨Vector.replicate 4 0⟩ n = zero := by
  rw [draw, generatorAt_eq, new_eq_zero_iff.mpr rfl, Function.iterate_fixed (map_zero step),
    randMatrixNoRankCheck_zero]

theorem generate_dom : (generate computeRank hash).Dom
    ↔ ∃ n, computeRank (draw hash n) = 64 := by
  rw [Part.dom_iff_mem]
  constructor
  · rintro ⟨m, hm⟩
    obtain ⟨n, hn, -⟩ := mem_generate.mp hm
    exact ⟨n, hn⟩
  · intro h
    exact ⟨⟨_, draw_nibbles hash (Nat.find h)⟩, mem_generate.mpr
      ⟨Nat.find h, Nat.find_spec h, fun k hk => Nat.find_min h hk, rfl⟩⟩

/-- Every draw is the first one from some seed. -/
theorem exists_draw_zero_eq (hash : Hash) (n : ℕ) : ∃ hash', draw hash' 0 = draw hash n := by
  obtain ⟨hash', hnew⟩ := new_surjective (generatorAt hash n)
  exact ⟨hash', by rw [draw, generatorAt, hnew, draw]⟩

/-- A nonzero seed draws what any other nonzero seed draws first. -/
theorem exists_draw_eq (h : hash ≠ ⟨Vector.replicate 4 0⟩) (h' : hash' ≠ ⟨Vector.replicate 4 0⟩) :
    ∃ n, draw hash n = draw hash' 0 := by
  obtain ⟨n, hn⟩ := exists_draws (mt new_eq_zero_iff.mp h) (mt new_eq_zero_iff.mp h')
  exact ⟨n, by rw [draw, generatorAt_eq, hn, draw, generatorAt]⟩

/-- Some draw from the seed has full rank when the seed is not zero and some seed has such a
draw. -/
theorem exists_full_rank_iff (hzero : computeRank zero = 0) :
    (∃ n, computeRank (draw hash n) = 64)
      ↔ hash ≠ ⟨Vector.replicate 4 0⟩ ∧ ∃ hash', computeRank (draw hash' 0) = 64 := by
  constructor
  · rintro ⟨n, hn⟩
    constructor
    · rintro rfl
      rw [draw_replicate_zero, hzero] at hn
      omega
    · obtain ⟨hash', hdraw⟩ := exists_draw_zero_eq hash n
      exact ⟨hash', by rw [hdraw, hn]⟩
  · rintro ⟨hhash, hash', hrank⟩
    have hhash' : hash' ≠ ⟨Vector.replicate 4 0⟩ := by
      rintro rfl
      rw [draw_replicate_zero, hzero] at hrank
      omega
    obtain ⟨n, hn⟩ := exists_draw_eq hhash hhash'
    exact ⟨n, by rw [hn, hrank]⟩

/-- The retry loop returns for every pre-PoW hash but the all-zero one, given that there is a
matrix of full rank to be drawn at all. -/
theorem generate_dom_iff (hzero : computeRank zero = 0) (hash : Hash) :
    (generate computeRank hash).Dom
      ↔ hash ≠ ⟨Vector.replicate 4 0⟩ ∧ ∃ hash', computeRank (draw hash' 0) = 64 := by
  rw [generate_dom, exists_full_rank_iff hzero]

/-- Stands in for the rank: right for the all-zero matrix, and for matrices of full rank that do
not start with a zero. -/
def sampleRank (self : Matrix64) : ℕ := if self.rows[0][0] = 0 then 0 else 64

/-- The seed of the source's own test, `[42; 32]`. -/
def testSeed : Hash := ⟨Vector.replicate 4 0x2A2A2A2A2A2A2A2A⟩

theorem testSeed_generates : (generate sampleRank testSeed).Dom :=
  (generate_dom_iff rfl testSeed).mpr ⟨by decide, testSeed, by decide +kernel⟩

/-- The all-zero hash stops at no draw. -/
theorem zero_hash_does_not_generate : ¬ ∀ computeRank : Matrix64 → ℕ, computeRank zero = 0 →
    ∀ hash, (generate computeRank hash).Dom := by
  intro h
  obtain ⟨n, hn⟩ := generate_dom.mp (h sampleRank rfl ⟨Vector.replicate 4 0⟩)
  rw [draw_replicate_zero] at hn
  exact absurd hn (by decide)

end Matrix64

/-- A job of the pool is set up when its matrix is generated. -/
theorem State.fromStratum_dom {computeRank : Matrix64 → ℕ}
    (hzero : computeRank Matrix64.zero = 0) (id : U64) (jobId : Rust.Str) (prePowHash : Uint256)
    (timestamp : U64) (blockTarget shareTarget : Uint256) (nonceMask nonceFixed : U64) :
    (fromStratum computeRank id jobId prePowHash timestamp blockTarget shareTarget nonceMask
        nonceFixed).Dom
      ↔ prePowHash ≠ ⟨Vector.replicate 4 0⟩
        ∧ ∃ hash', computeRank (Matrix64.draw hash' 0) = 64 := by
  rw [← Matrix64.exists_full_rank_iff hzero, ← Matrix64.generate_dom]
  exact Iff.rfl
