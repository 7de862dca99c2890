/-
The matrix stage of the proof of work (`src/pow/heavy_hash.rs`,
`src/pow/xoshiro.rs`).

A matrix of 64 × 64 nibbles is drawn from a generator seeded with the pre-PoW
hash until its rank is full, and `heavyHash` multiplies it with the nibbles of
a hash.  The rank is computed by elimination in `f64`; that function is the
parameter `computeRank`.
-/
import VelkarMiner.Hasher
import Mathlib.Computability.Partrec

open Bytes

/-! ### The generator -/

/-- xoshiro256++. -/
@[ext]
structure XoShiRo256PlusPlus where
  s0 : U64
  s1 : U64
  s2 : U64
  s3 : U64
deriving DecidableEq

namespace XoShiRo256PlusPlus

def new (hash : Hash) : XoShiRo256PlusPlus :=
  ⟨hash.words.get 0, hash.words.get 1, hash.words.get 2, hash.words.get 3⟩

/-- The next output and the state after it. -/
def u64 (self : XoShiRo256PlusPlus) : U64 × XoShiRo256PlusPlus :=
  let res := self.s0 + (self.s0 + self.s3).rotateLeft 23
  let t := self.s1 <<< 17
  let s2 := self.s2 ^^^ self.s0
  let s3 := self.s3 ^^^ self.s1
  let s1 := self.s1 ^^^ s2
  let s0 := self.s0 ^^^ s3
  (res, ⟨s0, s1, s2 ^^^ t, s3.rotateLeft 45⟩)

/-- The state after `n` outputs. -/
def skip (self : XoShiRo256PlusPlus) : ℕ → XoShiRo256PlusPlus
  | 0 => self
  | n + 1 => (self.skip n).u64.2

end XoShiRo256PlusPlus

/-! ### The matrix -/

structure Matrix64 where
  rows : Vector (Vector U16 64) 64

namespace Matrix64

/-- One draw: row `i` takes outputs `4i, …, 4i + 3` of the generator, sixteen
nibbles from each, low nibble first. -/
def randMatrixNoRankCheck (generator : XoShiRo256PlusPlus) : Matrix64 × XoShiRo256PlusPlus :=
  (⟨Vector.ofFn fun i => Vector.ofFn fun j =>
      let val := (generator.skip (4 * i.val + j.val / 16)).u64.1
      ((val >>> (4 * (j.val % 16))) &&& 0x0F#64).setWidth 16⟩,
    generator.skip 256)

/-- The generator before draw number `n`. -/
def generatorAt (hash : Hash) : ℕ → XoShiRo256PlusPlus
  | 0 => XoShiRo256PlusPlus.new hash
  | n + 1 => (randMatrixNoRankCheck (generatorAt hash n)).2

/-- Draw number `n` of the retry loop. -/
def draw (hash : Hash) (n : ℕ) : Matrix64 := (randMatrixNoRankCheck (generatorAt hash n)).1

/-- The nibbles of a hash, high nibble first. -/
def nibbles (hash : Vector Byte 32) : Vector Byte 64 :=
  Vector.ofFn fun k => if k.val % 2 = 0 then hash[k.val / 2] >>> 4 else hash[k.val / 2] &&& 0x0F

/-- The sum of one row with the nibbles, in `u16` arithmetic. -/
def rowSum (self : Matrix64) (row : Fin 64) (vec : Vector Byte 64) : U16 :=
  (List.finRange 64).foldl (fun sum j => sum + self.rows[row][j] * vec[j].setWidth 16) 0

/-- The product, two rows to a byte. -/
def product (self : Matrix64) (hash : Vector Byte 32) : Vector Byte 32 :=
  let vec := nibbles hash
  Vector.ofFn fun i =>
    let sum1 := self.rowSum ⟨2 * i.val, by omega⟩ vec
    let sum2 := self.rowSum ⟨2 * i.val + 1, by omega⟩ vec
    ((sum1 >>> 10) <<< 4).setWidth 8 ||| (sum2 >>> 10).setWidth 8

def heavyHash (c : Crates) (self : Matrix64) (hash : Hash) : Hash :=
  let bytes := hash.toLeBytes
  HeavyHasher.hash c (Uint256.fromLeBytes (Vector.zipWith (· ^^^ ·) (self.product bytes) bytes))

/-- The entries as 16-bit little-endian values, row by row. -/
def asU16LeBytes (self : Matrix64) : Vector Byte 8192 :=
  Vector.ofFn fun k => leByte (self.rows[k.val / 2 / 64][k.val / 2 % 64]) (k.val % 2)

/-- All entries are nibbles. -/
def Nibbles (self : Matrix64) : Prop :=
  ∀ i (hi : i < 64) j (hj : j < 64), self.rows[i][j].toNat ≤ 15

theorem randMatrixNoRankCheck_nibbles (generator : XoShiRo256PlusPlus) :
    (randMatrixNoRankCheck generator).1.Nibbles := by
  intro i hi j hj
  simp only [randMatrixNoRankCheck, Vector.getElem_ofFn, BitVec.toNat_setWidth, BitVec.toNat_and]
  exact (Nat.mod_le _ _).trans Nat.and_le_right

theorem draw_nibbles (hash : Hash) (n : ℕ) : (draw hash n).Nibbles :=
  randMatrixNoRankCheck_nibbles (generatorAt hash n)

end Matrix64

/-- A matrix of nibbles, as every draw is. -/
abbrev NibbleMatrix := { m : Matrix64 // m.Nibbles }

/-- The retry loop of `Matrix::generate`: the first draw of full rank, undefined
when there is none. -/
def Matrix64.generate (computeRank : Matrix64 → ℕ) (hash : Hash) : Part NibbleMatrix :=
  (Nat.rfind fun n => Part.some (decide (computeRank (Matrix64.draw hash n) = 64))).map
    fun n => ⟨Matrix64.draw hash n, Matrix64.draw_nibbles hash n⟩

theorem Matrix64.mem_generate {computeRank : Matrix64 → ℕ} {hash : Hash} {m : NibbleMatrix} :
    m ∈ generate computeRank hash ↔ ∃ n, computeRank (draw hash n) = 64
      ∧ (∀ k < n, computeRank (draw hash k) ≠ 64) ∧ m.val = draw hash n := by
  rw [generate, Part.mem_map_iff]
  constructor
  · rintro ⟨n, hn, rfl⟩
    obtain ⟨hfull, hbefore⟩ := Nat.mem_rfind.mp hn
    refine ⟨n, by simpa using hfull, fun k hk => ?_, rfl⟩
    simpa using hbefore hk
  · rintro ⟨n, hfull, hbefore, hm⟩
    refine ⟨n, Nat.mem_rfind.mpr ⟨by simpa using hfull, fun {k} hk => ?_⟩, Subtype.ext hm.symm⟩
    simpa using hbefore k hk
