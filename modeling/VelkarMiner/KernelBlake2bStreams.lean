/-
BLAKE2b of a prefixed block and of a keyed message in the device code
(`src/argon2_kernel.cl`).

Both functions split their stream into blocks of 128 bytes by hand.  After each block the
chaining value is that of RFC 7693 after as many blocks of the whole stream:

* `prefixLoop_eq` — the loop over the middle blocks, shifted by the four prefix bytes;
* `bytesAt_blake2bHash32PrefixBlockGlobal`, `bytesAt_blake2bKeyedPow72` — the digests;
* `kernel_blake2b_is_rfc7693` — all three variants of the kernel.
-/
import VelkarMiner.KernelBlake2b
import VelkarMiner.Argon2
import VelkarMiner.Hasher
import Mathlib.Data.List.GetD

open Bytes

namespace Kernel

/-! ### The code -/

/-- `while (total_len - compressed_total > 128)`. -/
def prefixLoop (input : Buffer Byte) (h : Vector U64 8) (block : Buffer Byte)
    (consumedInput compressedTotal : ℕ) : Vector U64 8 × Buffer Byte × ℕ × ℕ :=
  if 4 + 1024 - compressedTotal > 128 then
    let block := writeAt block 0 128 fun i => input (consumedInput + i)
    let h := blake2bCompressPrivate h block (BitVec.ofNat 64 (compressedTotal + 128)) false
    prefixLoop input h block (consumedInput + 128) (compressedTotal + 128)
  else (h, block, consumedInput, compressedTotal)
termination_by 4 + 1024 - compressedTotal

/-- The digest of 32 bytes that ends each variant. -/
def writeDigest32 (out : Buffer Byte) (h : Vector U64 8) : Buffer Byte :=
  writeAt out 0 32 fun i => (h.toList.getD (i >>> 3) 0 >>> (8 * (i &&& 7))).setWidth 8

def blake2bHash32PrefixBlockGlobal (block out input : Buffer Byte) : Buffer Byte :=
  let totalLen := 4 + 1024
  let h := blake2bInit (0x01010000#64 ^^^ 32#64)
  let block := store32LePrivate block 0 32
  let block := writeAt block 4 124 fun i => input i
  let h := blake2bCompressPrivate h block 128 false
  let (h, block, consumedInput, compressedTotal) := prefixLoop input h block 124 128
  let remaining := totalLen - compressedTotal
  let block := writeAt block 0 128 fun i => if i < remaining then input (consumedInput + i) else 0
  let h := blake2bCompressPrivate h block (BitVec.ofNat 64 totalLen) true
  writeDigest32 out h

def blake2bKeyedPow72 (block out input : Buffer Byte) : Buffer Byte :=
  let h := blake2bInit (0x01010000#64 ^^^ (15#64 <<< 8) ^^^ 32#64)
  let block := writeAt block 0 128 fun _ => 0
  let block := writeAt block 0 15 fun i => (asciiBytes "ProofOfWorkHash".toList).getD i 0
  let h := blake2bCompressPrivate h block 128 false
  let block := writeAt block 0 128 fun i => if i < 72 then input i else 0
  let h := blake2bCompressPrivate h block (128 + 72) true
  writeDigest32 out h

/-! ### The prefixed block -/

/-- The stream that is hashed. -/
def prefixedBlock (input : Buffer Byte) : List Byte := Argon2.le32 32 ++ bytesAt input 0 1024

theorem length_prefixedBlock (input : Buffer Byte) : (prefixedBlock input).length = 1028 := by
  rw [prefixedBlock, List.length_append, length_bytesAt]
  rfl

theorem getD_prefixedBlock_of_lt (input : Buffer Byte) {i : ℕ} (h : i < 4) :
    (prefixedBlock input).getD i 0 = leByte 32#32 i := by
  have hlength : (Argon2.le32 32).length = 4 := rfl
  rw [prefixedBlock, List.getD_append _ _ _ _ (by omega), Argon2.le32, List.getD_eq_getElem?_getD,
    List.getElem?_map, List.getElem?_range h]
  rfl

/-- The input is shifted by the prefix and padded with zeros. -/
theorem getD_prefixedBlock (input : Buffer Byte) {i : ℕ} (h : 4 ≤ i) :
    (prefixedBlock input).getD i 0 = if i < 1028 then input (i - 4) else 0 := by
  have hlength : (Argon2.le32 32).length = 4 := rfl
  rw [prefixedBlock, List.getD_append_right _ _ _ _ (by omega), hlength, getD_bytesAt, Nat.zero_add]
  exact if_congr (by omega) rfl rfl

/-- The chaining value after `k` blocks of the stream. -/
def prefixChain (input : Buffer Byte) (k : ℕ) : Vector U64 8 :=
  Blake2b.absorb (Blake2b.init 0 32) (prefixedBlock input) k

/-- Compressing the next block that is not the last one. -/
theorem compress_prefixChain (input block : Buffer Byte) {k : ℕ} (hk : k < 9)
    (hblock : ∀ i < 128, block i = (prefixedBlock input).getD (128 * k + i) 0) :
    blake2bCompressPrivate (prefixChain input k) block (BitVec.ofNat 64 (128 * (k + 1))) false
      = prefixChain input (k + 1) := by
  have hcounter : (BitVec.ofNat 64 (128 * (k + 1))).toNat = 128 * (k + 1) :=
    (BitVec.toNat_ofNat _ 64).trans (Nat.mod_eq_of_lt (by omega))
  rw [blake2bCompressPrivate_eq, load64Le_block hblock, hcounter, prefixChain, prefixChain,
    Blake2b.absorb_succ]

/-- From `k` blocks on the loop compresses all blocks but the last. -/
theorem prefixLoop_eq (input block : Buffer Byte) {k : ℕ} (hpos : 1 ≤ k) (hk : k ≤ 8) :
    ∃ block', prefixLoop input (prefixChain input k) block (128 * k - 4) (128 * k)
      = (prefixChain input 8, block', 1020, 1024) := by
  induction hn : 8 - k generalizing k block with
  | zero =>
    have hlast : k = 8 := by omega
    subst hlast
    rw [prefixLoop, if_neg (by omega)]
    exact ⟨block, rfl⟩
  | succ n ih =>
    have hstep := compress_prefixChain input
      (writeAt block 0 128 fun i => input (128 * k - 4 + i)) (k := k) (by omega) (by
        intro i hi
        rw [writeAt_apply, if_pos (by omega), Nat.sub_zero, getD_prefixedBlock input (by omega),
          if_pos (by omega)]
        congr 1
        omega)
    have hconsumed : 128 * k - 4 + 128 = 128 * (k + 1) - 4 := by omega
    have htotal : 128 * k + 128 = 128 * (k + 1) := by omega
    rw [prefixLoop, if_pos (by omega)]
    simp only [hconsumed, htotal, hstep]
    exact ih _ (by omega) (by omega) (by omega)

theorem bytesAt_writeDigest32 (out : Buffer Byte) (h : Vector U64 8) :
    bytesAt (writeDigest32 out h) 0 32 = (bytesOfWords h).toList.take 32 := by
  rw [writeDigest32, bytesAt_writeAt, map_digestByte _ (by omega)]

theorem bytesAt_blake2bHash32PrefixBlockGlobal (block out input : Buffer Byte) :
    bytesAt (blake2bHash32PrefixBlockGlobal block out input) 0 32
      = Blake2b.hash 32 [] (Argon2.le32 32 ++ bytesAt input 0 1024) := by
  -- the first block: the prefix and 124 bytes
  set first := writeAt (store32LePrivate block 0 32) 4 124 (fun i => input i) with hfirst
  have hblock : ∀ i < 128, first i = (prefixedBlock input).getD (128 * 0 + i) 0 := by
    intro i hi
    have hindex : 128 * 0 + i = i := by omega
    rw [hfirst, writeAt_apply, hindex]
    by_cases hprefix : i < 4
    · rw [if_neg (by omega), store32LePrivate_eq, writeAt_apply, if_pos (by omega), Nat.sub_zero,
        getD_prefixedBlock_of_lt input hprefix]
      rfl
    · rw [if_pos (by omega), getD_prefixedBlock input (by omega), if_pos (by omega)]
  have hone := compress_prefixChain input first (k := 0) (by omega) hblock
  have hinit : blake2bInit (0x01010000#64 ^^^ 32#64) = prefixChain input 0 := put_IV_eq_init 32
  obtain ⟨block', hloop⟩ := prefixLoop_eq input first (k := 1) (by omega) (by omega)
  -- the last block: four bytes and zeros
  have hlast := load64Le_writeAt block'
    (fun i => if i < 4 + 1024 - 1024 then input (1020 + i) else 0) (prefixedBlock input) 8 (by
      intro i hi
      rw [getD_prefixedBlock input (by omega)]
      have hindex : 128 * 8 + i - 4 = 1020 + i := by omega
      rw [hindex]
      exact if_congr (by omega) rfl rfl)
  have hcounter : (BitVec.ofNat 64 (4 + 1024)).toNat = 1028 := by decide
  have hstream : Argon2.le32 32 ++ bytesAt input 0 1024 = prefixedBlock input := rfl
  have hdata : Blake2b.keyed [] (prefixedBlock input) = prefixedBlock input := if_pos rfl
  have hblocks : Blake2b.numBlocks 1028 - 1 = 8 := by decide
  have hconsumed : 128 * 1 - 4 = 124 := by omega
  rw [hconsumed, Nat.mul_one] at hloop
  rw [blake2bHash32PrefixBlockGlobal, ← hfirst, hinit]
  simp only [show (128 : U64) = BitVec.ofNat 64 (128 * (0 + 1)) from rfl, hone, hloop]
  rw [bytesAt_writeDigest32, blake2bCompressPrivate_eq, hlast, hcounter, Blake2b.hash,
    Blake2b.digest]
  simp only [hstream, hdata, length_prefixedBlock, hblocks]
  rfl

/-! ### The keyed message -/

theorem bytesAt_blake2bKeyedPow72 (block out input : Buffer Byte) :
    bytesAt (blake2bKeyedPow72 block out input) 0 32
      = Blake2b.hash 32 (asciiBytes "ProofOfWorkHash".toList) (bytesAt input 0 72) := by
  set key := asciiBytes "ProofOfWorkHash".toList with hkey
  have hlength : key.length = 15 := by decide
  set data := key ++ List.replicate (128 - key.length) 0 ++ bytesAt input 0 72 with hdata
  have hkeyed : Blake2b.keyed key (bytesAt input 0 72) = data := if_neg (by decide)
  have hpadded : (key ++ List.replicate (128 - key.length) (0 : Byte)).length = 128 := by
    rw [List.length_append, List.length_replicate, hlength]
  have htotal : data.length = 200 := by
    rw [hdata, List.length_append, hpadded, length_bytesAt]
  -- the key fills a block of its own
  set first := writeAt (writeAt block 0 128 fun _ => 0) 0 15 (fun i => key.getD i 0) with hfirst
  have hblock : ∀ i < 128, first i = data.getD (128 * 0 + i) 0 := by
    intro i hi
    have hindex : 128 * 0 + i = i := by omega
    rw [hfirst, writeAt_apply, hindex, hdata, List.getD_append _ _ _ _ (by omega)]
    by_cases hshort : i < 15
    · rw [if_pos (by omega), Nat.sub_zero, List.getD_append _ _ _ _ (by omega)]
    · rw [if_neg (by omega), writeAt_apply, if_pos (by omega),
        List.getD_append_right _ _ _ _ (by omega), List.getD_eq_getElem?_getD,
        List.getElem?_replicate]
      split <;> rfl
  have hlast := load64Le_writeAt first (fun i => if i < 72 then input i else 0) data 1 (by
    intro i hi
    rw [hdata, List.getD_append_right _ _ _ _ (by omega), hpadded, getD_bytesAt, Nat.zero_add,
      Nat.mul_one, Nat.add_sub_cancel_left])
  have hcounter : (128 + 72 : U64).toNat = 200 := by decide
  have hblocks : Blake2b.numBlocks 200 - 1 = 1 := by decide
  have hinit : blake2bInit (0x01010000#64 ^^^ (15#64 <<< 8) ^^^ 32#64) = Blake2b.init 15 32 :=
    blake2bInit_keyed 15 32
  rw [blake2bKeyedPow72, hinit]
  simp only [← hkey, ← hfirst, blake2bCompressPrivate_eq, load64Le_block hblock, hlast, hcounter]
  rw [bytesAt_writeDigest32, Blake2b.hash, Blake2b.digest]
  simp only [hkeyed, htotal, hblocks, hlength]
  rfl

/-- The three variants of the kernel are BLAKE2b. -/
theorem kernel_blake2b_is_rfc7693 (block out input : Buffer Byte) :
    (∀ outLen inputLen, 1 ≤ outLen → outLen ≤ 64 → inputLen ≤ 256 →
        bytesAt (blake2bHashPrivate block out outLen input inputLen) 0 outLen
          = Blake2b.hash outLen [] (bytesAt input 0 inputLen))
      ∧ bytesAt (blake2bHash32PrefixBlockGlobal block out input) 0 32
        = Blake2b.hash 32 [] (Argon2.le32 32 ++ bytesAt input 0 1024)
      ∧ bytesAt (blake2bKeyedPow72 block out input) 0 32
        = Blake2b.hash 32 (asciiBytes "ProofOfWorkHash".toList) (bytesAt input 0 72) :=
  ⟨fun _ _ _ hout hin => bytesAt_blake2bHashPrivate block out input hout hin,
    bytesAt_blake2bHash32PrefixBlockGlobal block out input,
    bytesAt_blake2bKeyedPow72 block out input⟩

/-- Two full blocks with the longest digest. -/
theorem kernel_blake2b_is_rfc7693_two_blocks :
    bytesAt (blake2bHashPrivate (fun _ => 7) (fun _ => 7) 64 (fun i => BitVec.ofNat 8 i) 256) 0 64
      = Blake2b.hash 64 [] (bytesAt (fun i => BitVec.ofNat 8 i) 0 256) :=
  (kernel_blake2b_is_rfc7693 (fun _ => 7) (fun _ => 7) fun i => BitVec.ofNat 8 i).1 64 256
    (by omega) (by omega) (by omega)

end Kernel
