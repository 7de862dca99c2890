/-
BLAKE2b in the device code (`src/argon2_kernel.cl`).

A kernel has no length for its arrays and does not clear them: a private array is
a `Buffer` whose first contents are arbitrary.

* `blake2bCompressPrivate_eq` — the compression function is F of RFC 7693, for a
  counter of 64 bits;
* `bytesAt_blake2bHashPrivate` — `blake2b_hash_private` is unkeyed BLAKE2b on
  inputs of up to two blocks.
-/
import VelkarMiner.Blake2b

open Bytes

namespace Kernel

/-! ### Words and bytes -/

def BLAKE2B_IV : Vector U64 8 :=
  Vector.ofFn fun i =>
    [0x6a09e667f3bcc908, 0xbb67ae8584caa73b, 0x3c6ef372fe94f82b, 0xa54ff53a5f1d36f1,
      0x510e527fade682d1, 0x9b05688c2b3e6c1f, 0x1f83d9abfb41bd6b, 0x5be0cd19137e2179].getD i.val 0

def BLAKE2B_SIGMA : Vector (Vector (Fin 16) 16) 12 :=
  Vector.ofFn fun r => Vector.ofFn fun k =>
    ([[0, 1, 2, 3, 4, 5, 6, 7, 8, 9, 10, 11, 12, 13, 14, 15],
      [14, 10, 4, 8, 9, 15, 13, 6, 1, 12, 0, 2, 11, 7, 5, 3],
      [11, 8, 12, 0, 5, 2, 15, 13, 10, 14, 3, 6, 7, 1, 9, 4],
      [7, 9, 3, 1, 13, 12, 11, 14, 2, 6, 5, 10, 4, 0, 15, 8],
      [9, 0, 5, 7, 2, 4, 10, 15, 14, 1, 11, 12, 6, 8, 3, 13],
      [2, 12, 6, 10, 0, 11, 8, 3, 4, 13, 7, 5, 15, 14, 1, 9],
      [12, 5, 1, 15, 14, 13, 4, 10, 0, 7, 6, 3, 9, 2, 8, 11],
      [13, 11, 7, 14, 12, 1, 3, 9, 5, 0, 15, 4, 8, 6, 2, 10],
      [6, 15, 14, 9, 11, 3, 0, 8, 12, 2, 13, 7, 1, 4, 10, 5],
      [10, 2, 8, 4, 7, 6, 1, 5, 15, 11, 9, 14, 3, 12, 13, 0],
      [0, 1, 2, 3, 4, 5, 6, 7, 8, 9, 10, 11, 12, 13, 14, 15],
      [14, 10, 4, 8, 9, 15, 13, 6, 1, 12, 0, 2, 11, 7, 5, 3]].getD r.val []).getD k.val 0

def b2bRotr64 (x : U64) (n : ℕ) : U64 := (x >>> n) ||| (x <<< (64 - n))

/-- `load64_le_private(src + off)`, and the same on global memory. -/
def load64Le (src : Buffer Byte) (off : ℕ) : U64 :=
  (List.range 8).foldl (fun v i => v ||| (src (off + i)).setWidth 64 <<< (8 * i)) 0

/-- `store32_le_private(dst + off, v)`. -/
def store32LePrivate (dst : Buffer Byte) (off : ℕ) (v : U32) : Buffer Byte :=
  let dst := Function.update dst off (v.setWidth 8)
  let dst := Function.update dst (off + 1) ((v >>> 8).setWidth 8)
  let dst := Function.update dst (off + 2) ((v >>> 16).setWidth 8)
  Function.update dst (off + 3) ((v >>> 24).setWidth 8)

theorem store32LePrivate_eq (dst : Buffer Byte) (off : ℕ) (v : U32) :
    store32LePrivate dst off v = writeAt dst off 4 (leByte v) := rfl

/-! ### The compression function -/

/-- The macro `B2B_G`. -/
def B2B_G (v : Vector U64 16) (a b c d : Fin 16) (x y : U64) : Vector U64 16 :=
  let v := put v a (v.get a + v.get b + x)
  let v := put v d (b2bRotr64 (v.get d ^^^ v.get a) 32)
  let v := put v c (v.get c + v.get d)
  let v := put v b (b2bRotr64 (v.get b ^^^ v.get c) 24)
  let v := put v a (v.get a + v.get b + y)
  let v := put v d (b2bRotr64 (v.get d ^^^ v.get a) 16)
  let v := put v c (v.get c + v.get d)
  put v b (b2bRotr64 (v.get b ^^^ v.get c) 63)

/-- The body of the loop over the rounds. -/
def compressRound (m : Vector U64 16) (s : Vector (Fin 16) 16) (v : Vector U64 16) :
    Vector U64 16 :=
  let v := B2B_G v 0 4 8 12 (m.get (s.get 0)) (m.get (s.get 1))
  let v := B2B_G v 1 5 9 13 (m.get (s.get 2)) (m.get (s.get 3))
  let v := B2B_G v 2 6 10 14 (m.get (s.get 4)) (m.get (s.get 5))
  let v := B2B_G v 3 7 11 15 (m.get (s.get 6)) (m.get (s.get 7))
  let v := B2B_G v 0 5 10 15 (m.get (s.get 8)) (m.get (s.get 9))
  let v := B2B_G v 1 6 11 12 (m.get (s.get 10)) (m.get (s.get 11))
  let v := B2B_G v 2 7 8 13 (m.get (s.get 12)) (m.get (s.get 13))
  B2B_G v 3 4 9 14 (m.get (s.get 14)) (m.get (s.get 15))

def blake2bCompressPrivate (h : Vector U64 8) (block : Buffer Byte) (t : U64) (last : Bool) :
    Vector U64 8 :=
  let m : Vector U64 16 := Vector.ofFn fun i => load64Le block (i.val * 8)
  let v : Vector U64 16 := Vector.ofFn fun i => (h.toList ++ BLAKE2B_IV.toList).getD i.val 0
  let v := put v 12 (v.get 12 ^^^ t)
  let v := if last then put v 14 (~~~ v.get 14) else v
  let v := (List.finRange 12).foldl (fun v r => compressRound m (BLAKE2B_SIGMA.get r) v) v
  Vector.ofFn fun i => h.get i ^^^ (v.toList.getD i.val 0 ^^^ v.toList.getD (i.val + 8) 0)

/-- The chaining value before the first block: `h[0] ^= param`. -/
def blake2bInit (param : U64) : Vector U64 8 := put BLAKE2B_IV 0 (BLAKE2B_IV.get 0 ^^^ param)

/-- `blake2b_hash_private`; `block` is its private array. -/
def blake2bHashPrivate (block out : Buffer Byte) (outLen : ℕ) (input : Buffer Byte)
    (inputLen : ℕ) : Buffer Byte :=
  let h := put BLAKE2B_IV 0 (BLAKE2B_IV.get 0 ^^^ (0x01010000#64 ^^^ BitVec.ofNat 64 outLen))
  let (h, block, offset) :=
    if inputLen > 128 then
      let block := writeAt block 0 128 fun i => input i
      (blake2bCompressPrivate h block 128 false, block, 128)
    else (h, block, 0)
  let remaining := inputLen - offset
  let block := writeAt block 0 128 fun i => if i < remaining then input (offset + i) else 0
  let h := blake2bCompressPrivate h block (BitVec.ofNat 64 inputLen) true
  writeAt out 0 outLen fun i => (h.toList.getD (i >>> 3) 0 >>> (8 * (i &&& 7))).setWidth 8

/-! ### The compression function is F -/

theorem b2bRotr64_eq (x : U64) {n : ℕ} (hn : n < 64) : b2bRotr64 x n = x.rotateRight n := by
  rw [b2bRotr64, BitVec.rotateRight, Nat.mod_eq_of_lt hn]
  rfl

theorem set_eq_put {α : Type} {n i : ℕ} (v : Vector α n) (x : α) (hi : i < n) :
    v.set i x hi = put v ⟨i, hi⟩ x := by
  apply Vector.ext
  intro k hk
  rw [put, Vector.getElem_setIfInBounds, Vector.getElem_set]

theorem B2B_G_eq (v : Vector U64 16) (a b c d : Fin 16) (x y : U64) :
    B2B_G v a b c d x y = Blake2b.G v a b c d x y := by
  simp only [B2B_G, Blake2b.G, set_eq_put, b2bRotr64_eq _ (show 32 < 64 by omega),
    b2bRotr64_eq _ (show 24 < 64 by omega), b2bRotr64_eq _ (show 16 < 64 by omega),
    b2bRotr64_eq _ (show 63 < 64 by omega)]
  rfl

theorem compressRound_eq (m : Vector U64 16) (s : Vector (Fin 16) 16) (v : Vector U64 16) :
    compressRound m s v = Blake2b.round m s v := by
  simp only [compressRound, B2B_G_eq]
  rfl

/-- The two rows after the tenth repeat the first two. -/
theorem BLAKE2B_SIGMA_get (r : Fin 12) :
    BLAKE2B_SIGMA.get r = Blake2b.SIGMA.get ⟨r.val % 10, Nat.mod_lt _ (by omega)⟩ := by
  revert r
  decide

/-- The working vector starts from the chaining value and the initialization vector. -/
theorem workingVector_eq (h : Vector U64 8) :
    (Vector.ofFn fun i => (h.toList ++ BLAKE2B_IV.toList).getD i.val 0 : Vector U64 16)
      = (h ++ Blake2b.IV : Vector U64 (8 + 8)) := by
  apply Vector.ext
  intro i hi
  have hlist : h.toList ++ BLAKE2B_IV.toList = (h ++ Blake2b.IV).toList := by
    rw [Vector.toList_append]
    rfl
  rw [Vector.getElem_ofFn, hlist, List.getD_eq_getElem?_getD]
  simp [hi]

/-- With a counter of 64 bits the upper counter word is zero. -/
theorem put_upper_counter (v : Vector U64 16) (t : U64) :
    put v 13 (v.get 13 ^^^ BitVec.ofNat 64 (t.toNat / 2 ^ 64)) = v := by
  have hz : t.toNat / 2 ^ 64 = 0 := Nat.div_eq_of_lt t.isLt
  rw [hz]
  apply Vector.ext
  intro i hi
  rw [put, Vector.getElem_setIfInBounds]
  split
  · rename_i h
    subst h
    exact BitVec.xor_zero
  · rfl

theorem rounds_eq (m : Vector U64 16) (v : Vector U64 16) :
    (List.finRange 12).foldl (fun v r => compressRound m (BLAKE2B_SIGMA.get r) v) v
      = (List.range 12).foldl (fun v r => Blake2b.round m (Blake2b.SIGMA.get
          ⟨r % 10, Nat.mod_lt _ (by omega)⟩) v) v := by
  rw [← List.map_coe_finRange_eq_range, List.foldl_map]
  apply List.foldl_ext
  intro v r _
  rw [compressRound_eq, BLAKE2B_SIGMA_get]

theorem blake2bCompressPrivate_eq (h : Vector U64 8) (block : Buffer Byte) (t : U64)
    (last : Bool) : blake2bCompressPrivate h block t last
      = Blake2b.compress h (Vector.ofFn fun i => load64Le block (i.val * 8)) t.toNat last := by
  have ht : BitVec.ofNat 64 t.toNat = t := by rw [BitVec.ofNat_toNat, BitVec.setWidth_eq]
  have hcounter : ∀ v : Vector U64 16,
      put v ⟨13, by omega⟩ (v[13] ^^^ BitVec.ofNat 64 (t.toNat / 2 ^ 64)) = v := fun v =>
    put_upper_counter v t
  have hget : ∀ v : Vector U64 16, v.get 14 = v[14] := fun _ => rfl
  rw [blake2bCompressPrivate, Blake2b.compress]
  simp only [workingVector_eq, set_eq_put, hcounter, rounds_eq, ht, hget]
  apply Vector.ext
  intro i hi
  rw [Vector.getElem_ofFn, Vector.getElem_ofFn]
  simp [List.getD_eq_getElem?_getD, show i < 16 by omega, show i + 8 < 16 by omega, Vector.get,
    BitVec.xor_assoc]

/-! ### Unkeyed hashes of up to two blocks -/

/-- The words of a private block that holds block `k` of the data. -/
theorem load64Le_block {block : Buffer Byte} {data : List Byte} {k : ℕ}
    (h : ∀ i < 128, block i = data.getD (128 * k + i) 0) :
    (Vector.ofFn fun i : Fin 16 => load64Le block (i.val * 8)) = Blake2b.blockAt data k := by
  apply Vector.ext
  intro i hi
  rw [Vector.getElem_ofFn, Blake2b.blockAt, Vector.getElem_ofFn]
  have hword : ∀ b < 8, block (i * 8 + b) = data.getD (128 * k + 8 * i + b) 0 := by
    intro b hb
    rw [h _ (by omega)]
    congr 1
    omega
  exact ofLe_congr hword

/-- The words of a block filled from an input. -/
theorem load64Le_writeAt (block : Buffer Byte) (f : ℕ → Byte) (data : List Byte) (k : ℕ)
    (hf : ∀ i < 128, f i = data.getD (128 * k + i) 0) :
    (Vector.ofFn fun i : Fin 16 => load64Le (writeAt block 0 128 f) (i.val * 8))
      = Blake2b.blockAt data k := by
  refine load64Le_block fun i hi => ?_
  rw [writeAt_apply, if_pos (by omega), Nat.sub_zero, hf i hi]

theorem blake2bInit_keyed (keyLen outLen : ℕ) :
    blake2bInit (0x01010000#64 ^^^ (BitVec.ofNat 64 keyLen <<< 8) ^^^ BitVec.ofNat 64 outLen)
      = Blake2b.init keyLen outLen := by
  simp only [blake2bInit, Blake2b.init, set_eq_put, BitVec.xor_assoc]
  rfl

theorem put_IV_eq_init (outLen : ℕ) :
    put BLAKE2B_IV 0 (BLAKE2B_IV.get 0 ^^^ (0x01010000#64 ^^^ BitVec.ofNat 64 outLen))
      = Blake2b.init 0 outLen := by
  have hkey : BitVec.ofNat 64 0 <<< 8 = 0#64 := by decide
  have hkeyed := blake2bInit_keyed 0 outLen
  rw [hkey, BitVec.xor_zero] at hkeyed
  exact hkeyed

/-- The bytes of the chaining value, as the last loop writes them. -/
theorem map_digestByte (h : Vector U64 8) {outLen : ℕ} (ho : outLen ≤ 64) :
    ((List.range outLen).map fun i => (h.toList.getD (i >>> 3) 0 >>> (8 * (i &&& 7))).setWidth 8)
      = (bytesOfWords h).toList.take outLen := by
  apply List.ext_getElem
  · simpa using ho
  · intro i h₁ h₂
    have hi : i < outLen := by simpa using h₁
    have hd : i >>> 3 = i / 8 := by rw [Nat.shiftRight_eq_div_pow]
    have hm : i &&& 7 = i % 8 := Nat.and_two_pow_sub_one_eq_mod i 3
    have hlt : i / 8 < 8 := by omega
    rw [List.getElem_map, List.getElem_range, hd, hm, List.getElem_take, Vector.getElem_toList,
      getElem_bytesOfWords, List.getD_eq_getElem?_getD]
    simp [hlt, leByte]

theorem bytesAt_blake2bHashPrivate (block out input : Buffer Byte) {outLen inputLen : ℕ}
    (ho : outLen ≤ 64) (hi : inputLen ≤ 256) :
    bytesAt (blake2bHashPrivate block out outLen input inputLen) 0 outLen
      = Blake2b.hash outLen [] (bytesAt input 0 inputLen) := by
  set data := bytesAt input 0 inputLen with hdata
  have hlen : data.length = inputLen := length_bytesAt input 0 inputLen
  have hget : ∀ i, data.getD i 0 = if i < inputLen then input i else 0 := by
    intro i
    rw [hdata, getD_bytesAt, Nat.zero_add]
  have hkeyed : Blake2b.keyed [] data = data := if_pos rfl
  rw [blake2bHashPrivate]
  simp only [put_IV_eq_init]
  split
  case isTrue hgt =>
    -- a first block of 128 bytes, and the rest of the input
    have hblocks : Blake2b.numBlocks inputLen = 2 := by
      rw [Blake2b.numBlocks]
      omega
    have hfirst := load64Le_writeAt block (fun i => input i) data 0 (by
      intro i hlt
      rw [hget, if_pos (by omega), Nat.mul_zero, Nat.zero_add])
    have hsecond := load64Le_writeAt (writeAt block 0 128 fun i => input i)
      (fun i => if i < inputLen - 128 then input (128 + i) else 0) data 1 (by
        intro i hlt
        rw [hget, Nat.mul_one]
        exact if_congr (by omega) rfl rfl)
    rw [bytesAt_writeAt, map_digestByte _ ho]
    simp only [blake2bCompressPrivate_eq, hfirst, hsecond, Blake2b.hash, Blake2b.digest, hkeyed,
      hlen, hblocks]
    rw [BitVec.toNat_ofNat, Nat.mod_eq_of_lt (by omega)]
    rfl
  case isFalse hle =>
    have hblocks : Blake2b.numBlocks inputLen = 1 := by
      rw [Blake2b.numBlocks]
      omega
    have honly := load64Le_writeAt block
      (fun i => if i < inputLen - 0 then input (0 + i) else 0) data 0 (by
        intro i hlt
        rw [hget, Nat.mul_zero, Nat.zero_add, Nat.sub_zero])
    rw [bytesAt_writeAt, map_digestByte _ ho]
    simp only [blake2bCompressPrivate_eq, honly, Blake2b.hash, Blake2b.digest, hkeyed, hlen,
      hblocks]
    rw [BitVec.toNat_ofNat, Nat.mod_eq_of_lt (by omega)]
    rfl

end Kernel
