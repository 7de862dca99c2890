/-
The memory-hard function Argon2id, version 0x13, after RFC 9106.

* `P`, `compressG` — the permutation and the compression function (3.5, 3.6);
* `get_halfRound` — P as two half rounds of four independent quarters;
* `pseudoRand`, `refLane`, `window`, `refColumn` — indexing (3.4): where the
  64-bit value J1 ∥ J2 of a block comes from and which block it selects;
* `computeBlock`, `fill` — the memory after all passes, one block at a time in
  the order pass, slice, lane, offset;
* `hPrime`, `tag`, `argon2id` — the variable-length hash (3.3), the tag of a
  filled memory and the whole function (3.2).

Nothing here depends on how the blocks are computed by a particular program.
-/
import VelkarMiner.Blake2b

namespace Argon2

open Bytes

/-- A block of 1024 bytes, as 128 little-endian words. -/
abbrev Block := Vector U64 128

/-! ### The compression function -/

/-- Addition with the 32-bit product of BlaMka. -/
def fBlaMka (x y : U64) : U64 :=
  x + y + 2 * ((x.setWidth 32).setWidth 64 * (y.setWidth 32).setWidth 64)

/-- The function GB on four words. -/
def GB (a b c d : U64) : U64 × U64 × U64 × U64 :=
  let a := fBlaMka a b
  let d := (d ^^^ a).rotateRight 32
  let c := fBlaMka c d
  let b := (b ^^^ c).rotateRight 24
  let a := fBlaMka a b
  let d := (d ^^^ a).rotateRight 16
  let c := fBlaMka c d
  let b := (b ^^^ c).rotateRight 63
  (a, b, c, d)

/-- GB applied to four entries of an array of 16 words. -/
def applyGB (v : Vector U64 16) (a b c d : Fin 16) : Vector U64 16 :=
  let r := GB (v.get a) (v.get b) (v.get c) (v.get d)
  put (put (put (put v a r.1) b r.2.1) c r.2.2.1) d r.2.2.2

/-- The permutation P on the 16 words of eight registers. -/
def P (v : Vector U64 16) : Vector U64 16 :=
  let v := applyGB v 0 4 8 12
  let v := applyGB v 1 5 9 13
  let v := applyGB v 2 6 10 14
  let v := applyGB v 3 7 11 15
  let v := applyGB v 0 5 10 15
  let v := applyGB v 1 6 11 12
  let v := applyGB v 2 7 8 13
  applyGB v 3 4 9 14

/-! ### Half rounds

P first mixes the columns of the 4 × 4 matrix of its words and then the diagonals.
The four quarters of a half round touch disjoint words. -/

/-- GB on four words, as a function of the place. -/
def quarter (x : Fin 4 → U64) (r : Fin 4) : U64 :=
  let y := GB (x 0) (x 1) (x 2) (x 3)
  match r with
  | 0 => y.1
  | 1 => y.2.1
  | 2 => y.2.2.1
  | 3 => y.2.2.2

/-- Word `r` of column `m`. -/
def columnWord (m r : Fin 4) : Fin 16 := Fin.ofNat 16 (4 * r.val + m.val)

/-- Word `r` of diagonal `m`. -/
def diagonalWord (m r : Fin 4) : Fin 16 := Fin.ofNat 16 (4 * r.val + (m.val + r.val) % 4)

/-- Four quarters, one after the other. -/
def halfRound (q : Fin 4 → Fin 4 → Fin 16) (v : Vector U64 16) : Vector U64 16 :=
  (List.finRange 4).foldl (fun v m => applyGB v (q m 0) (q m 1) (q m 2) (q m 3)) v

theorem P_eq (v : Vector U64 16) : P v = halfRound diagonalWord (halfRound columnWord v) := rfl

theorem get_applyGB (v : Vector U64 16) {q : Fin 4 → Fin 16} (hq : Function.Injective q)
    (r : Fin 4) :
    (applyGB v (q 0) (q 1) (q 2) (q 3)).get (q r) = quarter (fun k => v.get (q k)) r := by
  simp only [applyGB, get_put, hq.eq_iff]
  fin_cases r <;> rfl

theorem get_applyGB_of_ne (v : Vector U64 16) {q : Fin 4 → Fin 16} {p : Fin 16}
    (hp : ∀ r, q r ≠ p) : (applyGB v (q 0) (q 1) (q 2) (q 3)).get p = v.get p := by
  simp only [applyGB, get_put, if_neg (hp _)]

/-- Quarters on disjoint words: each is that of the words before the half round. -/
theorem get_foldl_applyGB {q : Fin 4 → Fin 4 → Fin 16}
    (hq : Function.Injective fun p : Fin 4 × Fin 4 => q p.1 p.2) {L : List (Fin 4)}
    (hL : L.Nodup) (v : Vector U64 16) (m r : Fin 4) :
    (L.foldl (fun v m => applyGB v (q m 0) (q m 1) (q m 2) (q m 3)) v).get (q m r)
      = if m ∈ L then quarter (fun k => v.get (q m k)) r else v.get (q m r) := by
  have hrow : ∀ m, Function.Injective (q m) := fun m r r' h =>
    (Prod.ext_iff.mp (@hq (m, r) (m, r') h)).2
  have hne : ∀ {m m' : Fin 4}, m' ≠ m → ∀ r r', q m' r' ≠ q m r := fun hm r r' h =>
    hm (Prod.ext_iff.mp (@hq (_, r') (_, r) h)).1
  induction L generalizing v with
  | nil => rfl
  | cons m' L ih =>
    obtain ⟨hm', hL⟩ := List.nodup_cons.mp hL
    rw [List.foldl_cons, ih hL]
    by_cases hm : m' = m
    · subst hm
      rw [if_neg hm', if_pos List.mem_cons_self, get_applyGB v (hrow m')]
    · have hkeep : ∀ r, (applyGB v (q m' 0) (q m' 1) (q m' 2) (q m' 3)).get (q m r)
          = v.get (q m r) := fun r => get_applyGB_of_ne v (hne hm r)
      simp only [hkeep, List.mem_cons, show ¬ m = m' from fun h => hm h.symm, false_or]

theorem get_halfRound {q : Fin 4 → Fin 4 → Fin 16}
    (hq : Function.Injective fun p : Fin 4 × Fin 4 => q p.1 p.2) (v : Vector U64 16)
    (m r : Fin 4) : (halfRound q v).get (q m r) = quarter (fun k => v.get (q m k)) r := by
  rw [halfRound, get_foldl_applyGB hq (List.nodup_finRange 4), if_pos (List.mem_finRange m)]

theorem columnWord_injective : Function.Injective fun p : Fin 4 × Fin 4 => columnWord p.1 p.2 := by
  decide

theorem diagonalWord_injective :
    Function.Injective fun p : Fin 4 × Fin 4 => diagonalWord p.1 p.2 := by
  decide

/-! ### Rows and columns of a block -/

/-- Row `i` of a block: registers `8i, …, 8i + 7`. -/
def row (R : Block) (i : Fin 8) : Vector U64 16 := Vector.ofFn fun k => R[16 * i.val + k.val]

/-- Column `i` of a block: registers `i, i + 8, …, i + 56`. -/
def column (R : Block) (i : Fin 8) : Vector U64 16 :=
  Vector.ofFn fun k => R[2 * i.val + 16 * (k.val / 2) + k.val % 2]

/-- P applied to the eight rows. -/
def permuteRows (R : Block) : Block :=
  let Q : Vector (Vector U64 16) 8 := Vector.ofFn fun i => P (row R i)
  Vector.ofFn fun w => Q[w.val / 16][w.val % 16]

/-- P applied to the eight columns. -/
def permuteColumns (R : Block) : Block :=
  let Q : Vector (Vector U64 16) 8 := Vector.ofFn fun i => P (column R i)
  Vector.ofFn fun w => Q[w.val % 16 / 2][2 * (w.val / 16) + w.val % 2]

/-- P rowwise and then columnwise. -/
def permute (R : Block) : Block := permuteColumns (permuteRows R)

def xorBlock (X Y : Block) : Block := Vector.zipWith (· ^^^ ·) X Y

def zeroBlock : Block := Vector.replicate 128 0

/-- The compression function G. -/
def compressG (X Y : Block) : Block :=
  let R := xorBlock X Y
  xorBlock (permute R) R

/-! ### Indexing -/

/-- Degree of parallelism, number of passes and blocks in a segment. -/
structure Params where
  lanes : ℕ
  passes : ℕ
  segLen : ℕ

/-- The place of a block in the order of computation. -/
structure Pos where
  pass : ℕ
  slice : ℕ
  lane : ℕ
  offset : ℕ
deriving DecidableEq

/-- The memory matrix: block of a lane and a column. -/
abbrev Memory := ℕ → ℕ → Block

/-- Blocks in a lane: four slices. -/
def Params.laneLen (p : Params) : ℕ := 4 * p.segLen

def Pos.col (p : Params) (x : Pos) : ℕ := x.slice * p.segLen + x.offset

/-- The column before a position, wrapping around the lane. -/
def Pos.prevCol (p : Params) (x : Pos) : ℕ := (x.col p + p.laneLen - 1) % p.laneLen

/-- The first half of the first pass takes J1 and J2 from the address blocks. -/
def Pos.dataIndependent (x : Pos) : Bool := decide (x.pass = 0 ∧ x.slice < 2)

/-- The input block of the address generator: `y = 2` is Argon2id. -/
def addressInput (p : Params) (x : Pos) (counter : ℕ) : Block :=
  Vector.ofFn fun i =>
    ([x.pass, x.lane, x.slice, p.lanes * p.laneLen, p.passes, 2, counter].map
      (BitVec.ofNat 64)).getD i.val 0

/-- Address block number `counter` of the segment of a position. -/
def addressBlock (p : Params) (x : Pos) (counter : ℕ) : Block :=
  compressG zeroBlock (compressG zeroBlock (addressInput p x counter))

/-- The value J1 ∥ J2 of a position. -/
def pseudoRand (p : Params) (B : Memory) (x : Pos) : U64 :=
  if x.dataIndependent then
    (addressBlock p x (x.offset / 128 + 1))[x.offset % 128]
  else (B x.lane (x.prevCol p))[0]

def J1 (X : U64) : U32 := X.setWidth 32

def J2 (X : U64) : U32 := (X >>> 32).setWidth 32

/-- The lane of the reference block. -/
def refLane (p : Params) (x : Pos) (j2 : U32) : ℕ :=
  if x.pass = 0 ∧ x.slice = 0 then x.lane else j2.toNat % p.lanes

/-- The columns of the last three finished segments, oldest first. -/
def finished (p : Params) (x : Pos) : List ℕ :=
  if x.pass = 0 then List.range (x.slice * p.segLen)
  else (List.range (3 * p.segLen)).map fun k => ((x.slice + 1) * p.segLen + k) % p.laneLen

/-- The set W of columns that may be referenced in lane `l`, oldest first: in the
own lane also the blocks of the current segment; the very last one is left out
in the own lane and at the start of a segment. -/
def window (p : Params) (x : Pos) (l : ℕ) : List ℕ :=
  if l = x.lane then
    (finished p x ++ (List.range x.offset).map (x.slice * p.segLen + ·)).dropLast
  else if x.offset = 0 then (finished p x).dropLast
  else finished p x

/-- The column of the reference block in lane `l`. -/
def refColumn (p : Params) (x : Pos) (l : ℕ) (j1 : U32) : ℕ :=
  let W := window p x l
  let x₀ := j1.toNat * j1.toNat / 2 ^ 32
  let y := W.length * x₀ / 2 ^ 32
  W.getD (W.length - 1 - y) 0

/-! ### Filling the memory -/

/-- The memory after the block of one more position. -/
def computeBlock (p : Params) (B : Memory) (x : Pos) : Memory :=
  let X := pseudoRand p B x
  let l := refLane p x (J2 X)
  let new := compressG (B x.lane (x.prevCol p)) (B l (refColumn p x l (J1 X)))
  let new := if x.pass = 0 then new else xorBlock new (B x.lane (x.col p))
  Function.update B x.lane (Function.update (B x.lane) (x.col p) new)

/-- All positions in the order of computation; the first two columns of each lane
are given. -/
def positions (p : Params) : List Pos :=
  (List.range p.passes).flatMap fun pass => (List.range 4).flatMap fun slice =>
    (List.range p.lanes).flatMap fun lane =>
      ((List.range p.segLen).filter fun off => ¬ (pass = 0 ∧ slice = 0 ∧ off < 2)).map fun off =>
        ⟨pass, slice, lane, off⟩

/-- The memory after all passes, from the first two columns. -/
def fill (p : Params) (B : Memory) : Memory := (positions p).foldl (computeBlock p) B

/-! ### The variable-length hash, the first blocks and the tag -/

/-- `n` as four little-endian bytes. -/
def le32 (n : ℕ) : List Byte := (List.range 4).map (leByte (BitVec.ofNat 32 n))

/-- The chain `V₁, V₂, …` of `H'` after `V`, `n` links, each giving its first half. -/
def hPrimeChain : ℕ → List Byte → ℕ → List Byte
  | 0, V, last => Blake2b.hash last [] V
  | n + 1, V, last =>
    let V' := Blake2b.hash 64 [] V
    V'.take 32 ++ hPrimeChain n V' last

/-- The variable-length hash `H'^T`. -/
def hPrime (T : ℕ) (A : List Byte) : List Byte :=
  if T ≤ 64 then Blake2b.hash T [] (le32 T ++ A)
  else
    let r := (T + 31) / 32 - 2
    hPrimeChain r (le32 T ++ A) (T - 32 * r)

/-- The pre-hash H₀ for a tag of `T` bytes and `m` KiB of memory. -/
def preHash (p : Params) (T m : ℕ) (password salt secret ad : List Byte) : List Byte :=
  Blake2b.hash 64 [] (le32 p.lanes ++ le32 T ++ le32 m ++ le32 p.passes ++ le32 0x13 ++ le32 2
    ++ le32 password.length ++ password ++ le32 salt.length ++ salt
    ++ le32 secret.length ++ secret ++ le32 ad.length ++ ad)

/-- The first two columns of the memory. -/
def firstColumns (h₀ : List Byte) : Memory := fun l c =>
  Vector.ofFn fun w => ofLe 8 fun b =>
    (hPrime 1024 (h₀ ++ le32 c ++ le32 l)).getD (8 * w.val + b) 0

/-- The bytes of a block. -/
def blockBytes (X : Block) : List Byte := (bytesOfWords X).toList

/-- The tag of `T` bytes of a filled memory. -/
def tag (p : Params) (T : ℕ) (B : Memory) : List Byte :=
  hPrime T (blockBytes ((List.range p.lanes).foldl
    (fun C l => xorBlock C (B l (p.laneLen - 1))) zeroBlock))

/-- Argon2id with a tag of `T` bytes and `m` KiB of memory. -/
def argon2id (p : Params) (T m : ℕ) (password salt secret ad : List Byte) : List Byte :=
  tag p T (fill p (firstColumns (preHash p T m password salt secret ad)))

end Argon2
