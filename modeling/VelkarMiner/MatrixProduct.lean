/-
The arithmetic of the matrix stage (`src/pow/heavy_hash.rs`).

Every entry of a drawn matrix and every entry of the vector is a nibble, so that a row sum
is at most `64 * 225` and stays inside `u16`.  The ten bits that are shifted away leave a
nibble again, and the two nibbles of a byte are packed without touching each other:

* `matrix_stage_exact` — no operation of `heavy_hash` overflows, and the value hashed is
  computed from the integer product of the matrix with the nibbles of the input.
-/
import VelkarMiner.HeavyHash
import VelkarMiner.Rust
import Mathlib.Data.Matrix.Mul

open Bytes Rust

namespace Matrix64

/-! ### The stage with every operation checked -/

/-- `a * b` in `u16`, with overflow checks. -/
def mulU16 (a b : U16) : Outcome Error U16 :=
  if a.toNat * b.toNat < 2 ^ 16 then .ok (a * b) else .panic

/-- `a + b` in `u16`, with overflow checks. -/
def addU16 (a b : U16) : Outcome Error U16 :=
  if a.toNat + b.toNat < 2 ^ 16 then .ok (a + b) else .panic

/-- Row `r < 64` of the matrix. -/
def row (self : Matrix64) (r : ℕ) : Vector U16 64 := self.rows.get (Fin.ofNat 64 r)

/-- Both sums take the next entry of the vector. -/
def sumsTurn (self : Matrix64) (vec : Vector Byte 64) (i : Fin 32) (sums : U16 × U16)
    (j : Fin 64) : Outcome Error (U16 × U16) := do
  let elem := (vec.get j).setWidth 16
  let product1 ← mulU16 ((self.row (2 * i.val)).get j) elem
  let sum1 ← addU16 sums.1 product1
  let product2 ← mulU16 ((self.row (2 * i.val + 1)).get j) elem
  let sum2 ← addU16 sums.2 product2
  pure (sum1, sum2)

/-- Byte `i` of the product. -/
def productByteChecked (self : Matrix64) (vec : Vector Byte 64) (i : Fin 32) :
    Outcome Error Byte := do
  let sums ← (List.finRange 64).foldlM (self.sumsTurn vec i) (0, 0)
  pure (((sums.1 >>> 10) <<< 4).setWidth 8 ||| (sums.2 >>> 10).setWidth 8)

/-- `heavy_hash` in a build with overflow checks. -/
def heavyHashChecked (c : Crates) (self : Matrix64) (hash : Hash) : Outcome Error Hash := do
  let bytes := hash.toLeBytes
  let product ← Vector.ofFnM (self.productByteChecked (nibbles bytes))
  pure (HeavyHasher.hash c (Uint256.fromLeBytes (Vector.zipWith (· ^^^ ·) product bytes)))

/-! ### The stage over the integers -/

/-- The matrix over the integers. -/
def toNatMatrix (m : Matrix64) : Matrix (Fin 64) (Fin 64) ℕ :=
  fun i j => ((m.rows.get i).get j).toNat

/-- The nibbles of 32 bytes, the high one of each byte first. -/
def nibbleVector (bytes : Vector Byte 32) (k : Fin 64) : ℕ :=
  if k.val % 2 = 0 then (bytes.get (Fin.ofNat 32 (k.val / 2))).toNat / 16
  else (bytes.get (Fin.ofNat 32 (k.val / 2))).toNat % 16

/-- Entry `r < 64` of the product. -/
def rowProduct (m : Matrix64) (bytes : Vector Byte 32) (r : ℕ) : ℕ :=
  m.toNatMatrix.mulVec (nibbleVector bytes) (Fin.ofNat 64 r)

/-- Byte `i` of the value that is hashed. -/
def mixedByte (m : Matrix64) (bytes : Vector Byte 32) (i : Fin 32) : Byte :=
  bytes.get i ^^^ BitVec.ofNat 8
    (16 * (m.rowProduct bytes (2 * i.val) / 1024) + m.rowProduct bytes (2 * i.val + 1) / 1024)

/-! ### Nibbles -/

theorem nibble_le (x : Byte) : (x >>> 4).toNat ≤ 15 ∧ (x &&& 0x0f).toNat ≤ 15 := by
  have hx := x.isLt
  constructor
  · rw [BitVec.toNat_ushiftRight, Nat.shiftRight_eq_div_pow]
    omega
  · rw [BitVec.toNat_and]
    exact Nat.and_le_right

theorem nibbles_le (hash : Vector Byte 32) (j : Fin 64) : ((nibbles hash).get j).toNat ≤ 15 := by
  show ((nibbles hash)[j.val]).toNat ≤ 15
  rw [nibbles, Vector.getElem_ofFn]
  split
  · exact (nibble_le _).1
  · exact (nibble_le _).2

theorem toNat_nibbles (bytes : Vector Byte 32) (k : Fin 64) :
    ((nibbles bytes).get k).toNat = nibbleVector bytes k := by
  have hk : k.val / 2 < 32 := by omega
  have hindex : Fin.ofNat 32 (k.val / 2) = ⟨k.val / 2, hk⟩ := Fin.ext (Nat.mod_eq_of_lt hk)
  have hmask : (0x0F : Byte).toNat = 2 ^ 4 - 1 := rfl
  show ((nibbles bytes)[k.val]).toNat = _
  rw [nibbles, Vector.getElem_ofFn, nibbleVector, hindex]
  split
  · rw [BitVec.toNat_ushiftRight, Nat.shiftRight_eq_div_pow]
    rfl
  · rw [BitVec.toNat_and, hmask, Nat.and_two_pow_sub_one_eq_mod]
    rfl

/-! ### Sums of products of nibbles -/

section

theorem mul_nibbles_le {a b : ℕ} (ha : a ≤ 15) (hb : b ≤ 15) : a * b ≤ 225 := Nat.mul_le_mul ha hb

/-- A sum of `n` products of nibbles. -/
theorem sum_products_le {a b : Fin 64 → ℕ} (l : List (Fin 64)) (ha : ∀ j, a j ≤ 15)
    (hb : ∀ j, b j ≤ 15) : (l.map fun j => a j * b j).sum ≤ 225 * l.length := by
  induction l with
  | nil => exact Nat.le_refl 0
  | cons j l ih =>
    have hj := mul_nibbles_le (ha j) (hb j)
    rw [List.map_cons, List.sum_cons, List.length_cons]
    omega

variable {w : ℕ} {x e : Fin 64 → BitVec w}

/-- The sum that a loop accumulates is the integer sum, in every width that holds `64 * 225`. -/
theorem toNat_foldl_products (hw : 14 ≤ w) (l : List (Fin 64)) (hl : l.length ≤ 64)
    (hx : ∀ j, (x j).toNat ≤ 15) (he : ∀ j, (e j).toNat ≤ 15) :
    (l.foldl (fun sum j => sum + x j * e j) 0).toNat
      = (l.map fun j => (x j).toNat * (e j).toNat).sum := by
  have hroom : 2 ^ 14 ≤ 2 ^ w := Nat.pow_le_pow_right Nat.two_pos hw
  induction l using List.reverseRecOn with
  | nil => exact BitVec.toNat_zero
  | append_singleton l j ih =>
    rw [List.length_append, List.length_singleton] at hl
    have hsum := sum_products_le l hx he
    have hj := mul_nibbles_le (hx j) (he j)
    have hproduct : (x j * e j).toNat = (x j).toNat * (e j).toNat := by
      rw [BitVec.toNat_mul, Nat.mod_eq_of_lt (by omega)]
    rw [List.foldl_append, List.foldl_cons, List.foldl_nil, BitVec.toNat_add, ih (by omega),
      hproduct, List.map_append, List.sum_append, List.map_singleton, List.sum_singleton,
      Nat.mod_eq_of_lt (by omega)]

end

/-! ### Rows -/

section

variable (m : NibbleMatrix) (hash : Vector Byte 32)

theorem row_le (r : ℕ) (j : Fin 64) : ((m.val.row r).get j).toNat ≤ 15 :=
  m.property (Fin.ofNat 64 r).val (Fin.ofNat 64 r).isLt j.val j.isLt

theorem elem_toNat (j : Fin 64) :
    (((nibbles hash).get j).setWidth 16).toNat = ((nibbles hash).get j).toNat := by
  have hle := nibbles_le hash j
  rw [BitVec.toNat_setWidth, Nat.mod_eq_of_lt (by omega)]

theorem elem_le (j : Fin 64) : (((nibbles hash).get j).setWidth 16).toNat ≤ 15 :=
  (elem_toNat hash j).trans_le (nibbles_le hash j)

/-- The sum over the first entries of a row. -/
def partialSum (r : ℕ) (l : List (Fin 64)) : U16 :=
  l.foldl (fun sum j => sum + (m.val.row r).get j * ((nibbles hash).get j).setWidth 16) 0

theorem partialSum_concat (r : ℕ) (l : List (Fin 64)) (j : Fin 64) :
    partialSum m hash r (l ++ [j]) = partialSum m hash r l
      + (m.val.row r).get j * ((nibbles hash).get j).setWidth 16 :=
  List.foldl_concat ..

theorem toNat_partialSum (r : ℕ) (l : List (Fin 64)) (hl : l.length ≤ 64) :
    (partialSum m hash r l).toNat
      = (l.map fun j => ((m.val.row r).get j).toNat * ((nibbles hash).get j).toNat).sum := by
  rw [partialSum, toNat_foldl_products (by omega) l hl (row_le m r) (elem_le hash)]
  simp only [elem_toNat]

theorem partialSum_le (r : ℕ) (l : List (Fin 64)) (hl : l.length ≤ 64) :
    (partialSum m hash r l).toNat ≤ 225 * l.length := by
  rw [toNat_partialSum m hash r l hl]
  exact sum_products_le l (row_le m r) (nibbles_le hash)

/-- A whole row gives an entry of the integer product. -/
theorem toNat_partialSum_finRange (r : ℕ) :
    (partialSum m hash r (List.finRange 64)).toNat = m.val.rowProduct hash r := by
  rw [toNat_partialSum m hash r _ (by rw [List.length_finRange]), ← Fin.sum_univ_def]
  simp only [toNat_nibbles]
  rfl

theorem rowProduct_lt (r : ℕ) : m.val.rowProduct hash r < 2 ^ 14 := by
  have hle := partialSum_le m hash r (List.finRange 64) (by rw [List.length_finRange])
  rw [toNat_partialSum_finRange, List.length_finRange] at hle
  omega

/-! ### The loop -/

theorem mulU16_eq {a b : U16} (ha : a.toNat ≤ 15) (hb : b.toNat ≤ 15) :
    mulU16 a b = .ok (a * b) ∧ (a * b).toNat ≤ 225 := by
  have hle := mul_nibbles_le ha hb
  refine ⟨if_pos (by omega), ?_⟩
  rw [BitVec.toNat_mul]
  exact (Nat.mod_le _ _).trans hle

theorem addU16_eq {a b : U16} (h : a.toNat + b.toNat < 2 ^ 16) : addU16 a b = .ok (a + b) :=
  if_pos h

theorem foldlM_sumsTurn (i : Fin 32) (l : List (Fin 64)) (hl : l.length ≤ 64) :
    l.foldlM (m.val.sumsTurn (nibbles hash) i) (0, 0)
      = .ok (partialSum m hash (2 * i.val) l, partialSum m hash (2 * i.val + 1) l) := by
  induction l using List.reverseRecOn with
  | nil => rfl
  | append_singleton l j ih =>
    rw [List.length_append, List.length_singleton] at hl
    -- before the turn each sum is at most `225 * 63`
    have hsum1 := partialSum_le m hash (2 * i.val) l (by omega)
    have hsum2 := partialSum_le m hash (2 * i.val + 1) l (by omega)
    obtain ⟨hmul1, hle1⟩ := mulU16_eq (row_le m (2 * i.val) j) (elem_le hash j)
    obtain ⟨hmul2, hle2⟩ := mulU16_eq (row_le m (2 * i.val + 1) j) (elem_le hash j)
    have hadd1 := addU16_eq (a := partialSum m hash (2 * i.val) l)
      (b := (m.val.row (2 * i.val)).get j * ((nibbles hash).get j).setWidth 16) (by omega)
    have hadd2 := addU16_eq (a := partialSum m hash (2 * i.val + 1) l)
      (b := (m.val.row (2 * i.val + 1)).get j * ((nibbles hash).get j).setWidth 16) (by omega)
    rw [List.foldlM_append, ih (by omega), Outcome.ok_bind, List.foldlM_cons, sumsTurn, hmul1,
      Outcome.ok_bind, hadd1, Outcome.ok_bind, hmul2, Outcome.ok_bind, hadd2, partialSum_concat,
      partialSum_concat]
    rfl

/-- Two nibbles are packed without touching each other. -/
theorem pack_eq {a b : U16} (ha : a.toNat < 2 ^ 14) (hb : b.toNat < 2 ^ 14) :
    ((a >>> 10) <<< 4).setWidth 8 ||| (b >>> 10).setWidth 8
      = BitVec.ofNat 8 (16 * (a.toNat / 1024) + b.toNat / 1024) := by
  have hlow : b.toNat / 1024 < 2 ^ 4 := by omega
  have hshift : ((a >>> 10) <<< 4).toNat = 2 ^ 4 * (a.toNat / 1024) := by
    rw [BitVec.toNat_shiftLeft, BitVec.toNat_ushiftRight, Nat.shiftLeft_eq,
      Nat.shiftRight_eq_div_pow, Nat.mod_eq_of_lt (by omega)]
    omega
  apply BitVec.eq_of_toNat_eq
  rw [BitVec.toNat_or, BitVec.toNat_setWidth, BitVec.toNat_setWidth, hshift,
    BitVec.toNat_ushiftRight, Nat.shiftRight_eq_div_pow, BitVec.toNat_ofNat,
    Nat.mod_eq_of_lt (by omega), Nat.mod_eq_of_lt (by omega), Nat.mod_eq_of_lt (by omega),
    ← Nat.two_pow_add_eq_or_of_lt hlow]

theorem productByteChecked_eq (i : Fin 32) :
    m.val.productByteChecked (nibbles hash) i
      = .ok (BitVec.ofNat 8 (16 * (m.val.rowProduct hash (2 * i.val) / 1024)
          + m.val.rowProduct hash (2 * i.val + 1) / 1024)) := by
  have hfirst := toNat_partialSum_finRange m hash (2 * i.val)
  have hsecond := toNat_partialSum_finRange m hash (2 * i.val + 1)
  have hlt1 := rowProduct_lt m hash (2 * i.val)
  have hlt2 := rowProduct_lt m hash (2 * i.val + 1)
  have hpack := pack_eq (hfirst.trans_lt hlt1) (hsecond.trans_lt hlt2)
  rw [hfirst, hsecond] at hpack
  rw [productByteChecked, foldlM_sumsTurn m hash i _ (by rw [List.length_finRange]),
    Outcome.ok_bind, Outcome.pure_eq, hpack]

/-- The unchecked product is the same. -/
theorem product_get (i : Fin 32) :
    (m.val.product hash).get i = BitVec.ofNat 8 (16 * (m.val.rowProduct hash (2 * i.val) / 1024)
      + m.val.rowProduct hash (2 * i.val + 1) / 1024) := by
  have hrow : ∀ r (hr : r < 64), m.val.rowSum ⟨r, hr⟩ (nibbles hash)
      = partialSum m hash r (List.finRange 64) := by
    intro r hr
    have hindex : Fin.ofNat 64 r = ⟨r, hr⟩ := Fin.ext (Nat.mod_eq_of_lt hr)
    rw [partialSum, row, hindex]
    rfl
  have hfirst := toNat_partialSum_finRange m hash (2 * i.val)
  have hsecond := toNat_partialSum_finRange m hash (2 * i.val + 1)
  have hlt1 := rowProduct_lt m hash (2 * i.val)
  have hlt2 := rowProduct_lt m hash (2 * i.val + 1)
  rw [product, get_ofFn, hrow, hrow, pack_eq (by omega) (by omega), hfirst, hsecond]

theorem zipWith_product (product : Vector Byte 32) (h : ∀ i : Fin 32, product.get i
      = BitVec.ofNat 8 (16 * (m.val.rowProduct hash (2 * i.val) / 1024)
        + m.val.rowProduct hash (2 * i.val + 1) / 1024)) :
    Vector.zipWith (· ^^^ ·) product hash = Vector.ofFn (mixedByte m.val hash) := by
  apply Vector.ext
  intro i hi
  have hi' : product[i] = _ := h ⟨i, hi⟩
  rw [Vector.getElem_zipWith, Vector.getElem_ofFn, hi', BitVec.xor_comm]
  rfl

end

/-- The matrix stage is exact integer arithmetic. -/
theorem matrix_stage_exact :
    (∀ generator, (randMatrixNoRankCheck generator).1.Nibbles)
      ∧ ∀ (m : NibbleMatrix) (c : Crates) (hash : Hash),
        m.val.heavyHashChecked c hash = .ok (m.val.heavyHash c hash)
          ∧ (∀ r < 64, m.val.rowProduct hash.toLeBytes r / 1024 < 16)
          ∧ m.val.heavyHash c hash = HeavyHasher.hash c
              (Uint256.fromLeBytes (Vector.ofFn (m.val.mixedByte hash.toLeBytes))) := by
  refine ⟨randMatrixNoRankCheck_nibbles, fun m c hash => ?_⟩
  have hvalue : m.val.heavyHash c hash = HeavyHasher.hash c
      (Uint256.fromLeBytes (Vector.ofFn (m.val.mixedByte hash.toLeBytes))) := by
    rw [heavyHash, zipWith_product m _ _ (product_get m _)]
  refine ⟨?_, fun r _ => ?_, hvalue⟩
  · have hbytes : m.val.productByteChecked (nibbles hash.toLeBytes) = fun i => pure
        (BitVec.ofNat 8 (16 * (m.val.rowProduct hash.toLeBytes (2 * i.val) / 1024)
          + m.val.rowProduct hash.toLeBytes (2 * i.val + 1) / 1024)) :=
      funext (productByteChecked_eq m hash.toLeBytes)
    rw [heavyHashChecked, hbytes, Vector.ofFnM_pure, Outcome.pure_eq, Outcome.ok_bind,
      zipWith_product m _ _ (fun i => get_ofFn _ i), hvalue]
    rfl
  · have hlt := rowProduct_lt m hash.toLeBytes r
    omega

end Matrix64
