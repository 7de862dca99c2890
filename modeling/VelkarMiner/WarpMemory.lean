/-
Blocks in the memory of the device (`src/argon2_kernel.cl`).

The memory is an array of 64-bit words, 128 to a block.  Thread `t` of a warp loads the
words `t`, `32 + t`, `64 + t` and `96 + t` of a block and stores the same ones, so that the
threads touch disjoint words.

* `loadBlock_spread`, `blockAt_storeBlock` — what a load finds and a store leaves behind;
* `storeBlock_frame` — a store changes no other block;
* `shuffle_block_permutes` — load, shuffle and store are the permutation of RFC 9106.
-/
import VelkarMiner.WarpShuffle

open Bytes

namespace Kernel

/-! ### Loads and stores -/

/-- `load_block`, all threads. -/
def loadBlock (memory : Buffer U64) (src : ℕ) : Warp BlockTh := fun thread =>
  { a := memory (128 * src + (0 * 32 + thread.val))
    b := memory (128 * src + (1 * 32 + thread.val))
    c := memory (128 * src + (2 * 32 + thread.val))
    d := memory (128 * src + (3 * 32 + thread.val)) }

/-- `load_block_xor`, all threads. -/
def loadBlockXor (dst : Warp BlockTh) (memory : Buffer U64) (src : ℕ) : Warp BlockTh :=
  fun thread =>
    { a := (dst thread).a ^^^ memory (128 * src + (0 * 32 + thread.val))
      b := (dst thread).b ^^^ memory (128 * src + (1 * 32 + thread.val))
      c := (dst thread).c ^^^ memory (128 * src + (2 * 32 + thread.val))
      d := (dst thread).d ^^^ memory (128 * src + (3 * 32 + thread.val)) }

/-- `store_block` for one thread. -/
def storeThread (memory : Buffer U64) (dst : ℕ) (src : BlockTh) (thread : ℕ) : Buffer U64 :=
  let memory := Function.update memory (128 * dst + (0 * 32 + thread)) src.a
  let memory := Function.update memory (128 * dst + (1 * 32 + thread)) src.b
  let memory := Function.update memory (128 * dst + (2 * 32 + thread)) src.c
  Function.update memory (128 * dst + (3 * 32 + thread)) src.d

/-- `store_block`, the threads in any order. -/
def storeBlock (order : List (Fin 32)) (memory : Buffer U64) (dst : ℕ) (src : Warp BlockTh) :
    Buffer U64 :=
  order.foldl (fun memory thread => storeThread memory dst (src thread) thread.val) memory

/-- A block of the memory. -/
def blockAt (memory : Buffer U64) (n : ℕ) : Argon2.Block :=
  Vector.ofFn fun w => memory (128 * n + w.val)

theorem get_blockAt (memory : Buffer U64) (n : ℕ) (w : Fin 128) :
    (blockAt memory n).get w = memory (128 * n + w.val) := get_ofFn _ w

theorem val_blockWord (r : Fin 4) (t : Fin 32) : (blockWord r t).val = r.val * 32 + t.val := by
  have hval : (blockWord r t).val = 32 * r.val + t.val := Nat.mod_eq_of_lt (by omega)
  omega

theorem loadBlock_spread (memory : Buffer U64) (n : ℕ) :
    Spread (loadBlock memory n) (blockAt memory n) := by
  intro t r
  rw [get_blockAt, val_blockWord]
  fin_cases r <;> rfl

theorem loadBlockXor_spread {w : Warp BlockTh} {R : Argon2.Block} (h : Spread w R)
    (memory : Buffer U64) (n : ℕ) :
    Spread (loadBlockXor w memory n) (Argon2.xorBlock R (blockAt memory n)) := by
  intro t r
  have hreg : (loadBlockXor w memory n t).reg r
      = (w t).reg r ^^^ (loadBlock memory n t).reg r := by
    fin_cases r <;> rfl
  rw [hreg, h, loadBlock_spread]
  exact (Vector.getElem_zipWith (blockWord r t).isLt).symm

/-! ### What a store does -/

theorem storeThread_word (memory : Buffer U64) (dst : ℕ) (b : BlockTh) (thread : ℕ) (r : Fin 4) :
    storeThread memory dst b thread (128 * dst + (r.val * 32 + thread)) = b.reg r := by
  fin_cases r <;> simp [storeThread, BlockTh.reg]

theorem storeThread_of_ne (memory : Buffer U64) (dst : ℕ) (b : BlockTh) {thread a : ℕ}
    (h : ∀ r : Fin 4, a ≠ 128 * dst + (r.val * 32 + thread)) :
    storeThread memory dst b thread a = memory a := by
  have h0 : a ≠ 128 * dst + (0 * 32 + thread) := h 0
  have h1 : a ≠ 128 * dst + (1 * 32 + thread) := h 1
  have h2 : a ≠ 128 * dst + (2 * 32 + thread) := h 2
  have h3 : a ≠ 128 * dst + (3 * 32 + thread) := h 3
  rw [storeThread, Function.update_of_ne h3, Function.update_of_ne h2, Function.update_of_ne h1,
    Function.update_of_ne h0]

/-- Each thread stores its own words, whatever the order. -/
theorem storeBlock_word {order : List (Fin 32)} (horder : order.Nodup) (memory : Buffer U64)
    (dst : ℕ) (src : Warp BlockTh) (t : Fin 32) (r : Fin 4) :
    storeBlock order memory dst src (128 * dst + (r.val * 32 + t.val))
      = if t ∈ order then (src t).reg r else memory (128 * dst + (r.val * 32 + t.val)) := by
  induction order generalizing memory with
  | nil => rfl
  | cons thread order ih =>
    obtain ⟨hnot, horder⟩ := List.nodup_cons.mp horder
    rw [storeBlock, List.foldl_cons, ← storeBlock, ih horder]
    by_cases ht : t = thread
    · subst ht
      rw [if_neg hnot, if_pos List.mem_cons_self, storeThread_word]
    · have hkeep : storeThread memory dst (src thread) thread.val
          (128 * dst + (r.val * 32 + t.val)) = memory (128 * dst + (r.val * 32 + t.val)) := by
        refine storeThread_of_ne memory dst _ fun r' heq => ht (Fin.ext ?_)
        omega
      simp only [hkeep, List.mem_cons, ht, false_or]

/-- A store changes no other block. -/
theorem storeBlock_frame (order : List (Fin 32)) (memory : Buffer U64) (dst : ℕ)
    (src : Warp BlockTh) {a : ℕ} (ha : a < 128 * dst ∨ 128 * dst + 128 ≤ a) :
    storeBlock order memory dst src a = memory a := by
  induction order generalizing memory with
  | nil => rfl
  | cons thread order ih =>
    rw [storeBlock, List.foldl_cons, ← storeBlock, ih]
    exact storeThread_of_ne memory dst _ fun r heq => by omega

theorem blockAt_storeBlock {order : List (Fin 32)} (horder : order.Nodup)
    (hall : ∀ t, t ∈ order) (memory : Buffer U64) (dst : ℕ) {src : Warp BlockTh}
    {R : Argon2.Block} (h : Spread src R) : blockAt (storeBlock order memory dst src) dst = R := by
  apply Vector.ext
  intro i hi
  have hr : i / 32 < 4 := by omega
  have ht : i % 32 < 32 := by omega
  have hi' : i = (⟨i / 32, hr⟩ : Fin 4).val * 32 + (⟨i % 32, ht⟩ : Fin 32).val :=
    (Nat.div_add_mod' i 32).symm
  have hword : blockWord ⟨i / 32, hr⟩ ⟨i % 32, ht⟩ = ⟨i, hi⟩ := by
    apply Fin.ext
    rw [val_blockWord]
    exact hi'.symm
  have hstore := storeBlock_word horder memory dst src ⟨i % 32, ht⟩ ⟨i / 32, hr⟩
  rw [← hi', if_pos (hall _), h, hword] at hstore
  rw [blockAt, Vector.getElem_ofFn]
  exact hstore

theorem blockAt_storeBlock_of_ne {dst n : ℕ} (h : n ≠ dst) (order : List (Fin 32))
    (memory : Buffer U64) (src : Warp BlockTh) :
    blockAt (storeBlock order memory dst src) n = blockAt memory n := by
  apply Vector.ext
  intro i hi
  rw [blockAt, blockAt, Vector.getElem_ofFn, Vector.getElem_ofFn]
  exact storeBlock_frame order memory dst src (by omega)

/-! ### The permutation -/

/-- Loading a block, shuffling it and storing it applies P to its rows and then to its columns,
with either definition of `rotr64`; a thread receives what its source holds. -/
theorem shuffle_block_permutes (amdMediaOps : Bool) (memory : Buffer U64) (block : ℕ) :
    (∀ (t : Fin 32) (r : Fin 4),
        (loadBlock memory block t).reg r = memory (128 * block + (32 * r.val + t.val)))
      ∧ blockAt (storeBlock (List.finRange 32) memory block
          (shuffleBlock amdMediaOps (loadBlock memory block))) block
        = Argon2.permuteColumns (Argon2.permuteRows (blockAt memory block))
      ∧ ∀ (v : Warp U64) (threadSrc : Warp ℕ) (h : ∀ t, threadSrc t < 32) (t : Fin 32),
        u64Shuffle v threadSrc t = v ⟨threadSrc t, h t⟩ := by
  refine ⟨fun t r => ?_, ?_, fun v threadSrc h t => ?_⟩
  · rw [loadBlock_spread, get_blockAt, val_blockWord, Nat.mul_comm 32]
  · exact blockAt_storeBlock (List.nodup_finRange 32) List.mem_finRange memory block
      (shuffleBlock_spread amdMediaOps (loadBlock_spread memory block))
  · exact u64Shuffle_eq v (fun t => ⟨threadSrc t, h t⟩) (fun _ => rfl) t

/-- A shuffle that reverses the threads. -/
theorem shuffle_block_permutes_reverse :
    blockAt (storeBlock (List.finRange 32) (fun a => BitVec.ofNat 64 a) 0
        (shuffleBlock false (loadBlock (fun a => BitVec.ofNat 64 a) 0))) 0
      = Argon2.permuteColumns (Argon2.permuteRows (blockAt (fun a => BitVec.ofNat 64 a) 0))
      ∧ u64Shuffle (fun t => BitVec.ofNat 64 t.val) (fun t => 31 - t.val) 0
        = BitVec.ofNat 64 31 := by
  obtain ⟨-, hblock, hshuffle⟩ := shuffle_block_permutes false (fun a => BitVec.ofNat 64 a) 0
  exact ⟨hblock, hshuffle _ (fun t => 31 - t.val) (fun t => by omega) 0⟩

end Kernel
