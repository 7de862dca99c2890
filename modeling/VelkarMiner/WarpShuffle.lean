/-
The block permutation of the device (`src/argon2_kernel.cl`), spread over a warp.

A warp of 32 threads in lockstep holds the 128 words of a block, four in each thread.
A thread mixes its own four words with `g`; between the mixings the words travel
through `u64_shuffle`, so that each thread always holds one quarter of a half round.

* `shuffleShift1_reg`, `shuffleShift2_reg`, `transpose_reg` — from which thread and
  which register a word comes;
* `permuteLines_reg` — two mixings with a shift between them are P on the lines that
  the threads of a group share;
* `shuffleBlock_spread` — the whole is the permutation of RFC 9106, with either
  definition of `rotr64`.
-/
import VelkarMiner.Argon2

open Bytes

namespace Kernel

/-! ### The words of a thread -/

def u64Build (hi lo : U32) : U64 := hi.setWidth 64 <<< 32 ||| lo.setWidth 64

def u64Lo (x : U64) : U32 := x.setWidth 32

def u64Hi (x : U64) : U32 := (x >>> 32).setWidth 32

/-- `struct block_th`. -/
structure BlockTh where
  a : U64
  b : U64
  c : U64
  d : U64

/-- A value in each thread of a warp. -/
abbrev Warp (α : Type) := Fin 32 → α

/-- `buf` has a slot for each thread; all of them are filled before any is read. -/
def u64Shuffle (v : Warp U64) (threadSrc : Warp ℕ) : Warp U64 :=
  let lo : Vector U32 32 := Vector.ofFn fun thread => u64Lo (v thread)
  let hi : Vector U32 32 := Vector.ofFn fun thread => u64Hi (v thread)
  fun thread => u64Build (hi.toList.getD (threadSrc thread) 0) (lo.toList.getD (threadSrc thread) 0)

def cmpeqMask (test ref : ℕ) : U64 :=
  let x : U32 := -(if test = ref then 1 else 0)
  u64Build x x

def blockThGet (b : BlockTh) (idx : ℕ) : U64 :=
  let res : U64 := 0
  let res := res ^^^ (cmpeqMask idx 0 &&& b.a)
  let res := res ^^^ (cmpeqMask idx 1 &&& b.b)
  let res := res ^^^ (cmpeqMask idx 2 &&& b.c)
  res ^^^ (cmpeqMask idx 3 &&& b.d)

def blockThSet (b : BlockTh) (idx : ℕ) (v : U64) : BlockTh where
  a := b.a ^^^ (cmpeqMask idx 0 &&& (v ^^^ b.a))
  b := b.b ^^^ (cmpeqMask idx 1 &&& (v ^^^ b.b))
  c := b.c ^^^ (cmpeqMask idx 2 &&& (v ^^^ b.c))
  d := b.d ^^^ (cmpeqMask idx 3 &&& (v ^^^ b.d))

def amdBitalign (hi lo : U32) (n : ℕ) : U32 := (u64Build hi lo >>> (n % 32)).setWidth 32

/-- Both definitions of `rotr64`: with `cl_amd_media_ops` and without. -/
def rotr64 (amdMediaOps : Bool) (x : U64) (n : ℕ) : U64 :=
  if amdMediaOps then
    let lo := u64Lo x
    let hi := u64Hi x
    if n < 32 then u64Build (amdBitalign lo hi n) (amdBitalign hi lo n)
    else u64Build (amdBitalign hi lo (n - 32)) (amdBitalign lo hi (n - 32))
  else x.rotateLeft (64 - n)

def mulHi (x y : U32) : U32 := ((x.setWidth 64 * y.setWidth 64) >>> 32).setWidth 32

def f (x y : U64) : U64 :=
  let xlo := u64Lo x
  let ylo := u64Lo y
  x + y + 2 * u64Build (mulHi xlo ylo) (xlo * ylo)

def g (amdMediaOps : Bool) (block : BlockTh) : BlockTh :=
  let a := f block.a block.b
  let d := rotr64 amdMediaOps (block.d ^^^ a) 32
  let c := f block.c d
  let b := rotr64 amdMediaOps (block.b ^^^ c) 24
  let a := f a b
  let d := rotr64 amdMediaOps (d ^^^ a) 16
  let c := f c d
  let b := rotr64 amdMediaOps (b ^^^ c) 63
  ⟨a, b, c, d⟩

/-! ### The routes between threads -/

def applyShuffleShift1 (thread idx : ℕ) : ℕ := (thread &&& 0x1c) ||| ((thread + idx) &&& 0x3)

def applyShuffleUnshift1 (thread idx : ℕ) : ℕ := applyShuffleShift1 thread ((4 - idx) % 4)

def applyShuffleShift2 (thread idx : ℕ) : ℕ :=
  let lo := (thread &&& 0x1) ||| ((thread &&& 0x10) >>> 3)
  let lo := (lo + idx) &&& 0x3
  ((lo &&& 0x2) <<< 3) ||| (thread &&& 0xe) ||| (lo &&& 0x1)

def applyShuffleUnshift2 (thread idx : ℕ) : ℕ := applyShuffleShift2 thread ((4 - idx) % 4)

/-- The body of the shuffle loops: register `idx` of a thread receives what thread `thr` put
into its slot. -/
def shuffleReg (block : Warp BlockTh) (idx thr : Warp ℕ) : Warp BlockTh :=
  let v : Warp U64 := fun thread => blockThGet (block thread) (idx thread)
  let v := u64Shuffle v thr
  fun thread => blockThSet (block thread) (idx thread) (v thread)

def shuffleShift1 (block : Warp BlockTh) : Warp BlockTh :=
  (List.range 4).foldl (fun block i =>
    shuffleReg block (fun _ => i) fun thread => applyShuffleShift1 thread i) block

def shuffleUnshift1 (block : Warp BlockTh) : Warp BlockTh :=
  (List.range 4).foldl (fun block i =>
    shuffleReg block (fun _ => i) fun thread => applyShuffleUnshift1 thread i) block

def shuffleShift2 (block : Warp BlockTh) : Warp BlockTh :=
  (List.range 4).foldl (fun block i =>
    shuffleReg block (fun _ => i) fun thread => applyShuffleShift2 thread i) block

def shuffleUnshift2 (block : Warp BlockTh) : Warp BlockTh :=
  (List.range 4).foldl (fun block i =>
    shuffleReg block (fun _ => i) fun thread => applyShuffleUnshift2 thread i) block

def threadGroup (thread : ℕ) : ℕ := (thread &&& 0x0c) >>> 2

def transpose (block : Warp BlockTh) : Warp BlockTh :=
  (List.range' 1 3).foldl (fun block i =>
    shuffleReg block (fun thread => threadGroup thread ^^^ i) fun thread => (i <<< 2) ^^^ thread)
      block

def shuffleBlock (amdMediaOps : Bool) (block : Warp BlockTh) : Warp BlockTh :=
  let block := transpose block
  let block : Warp BlockTh := fun thread => g amdMediaOps (block thread)
  let block := shuffleShift1 block
  let block : Warp BlockTh := fun thread => g amdMediaOps (block thread)
  let block := shuffleUnshift1 block
  let block := transpose block
  let block : Warp BlockTh := fun thread => g amdMediaOps (block thread)
  let block := shuffleShift2 block
  let block : Warp BlockTh := fun thread => g amdMediaOps (block thread)
  shuffleUnshift2 block

/-! ### One thread -/

/-- The registers of a thread by number. -/
def BlockTh.reg (b : BlockTh) (r : Fin 4) : U64 :=
  match r with
  | 0 => b.a
  | 1 => b.b
  | 2 => b.c
  | 3 => b.d

theorem getLsbD_u64Build (hi lo : U32) {i : ℕ} (h : i < 64) :
    (u64Build hi lo).getLsbD i = if i < 32 then lo.getLsbD i else hi.getLsbD (i - 32) := by
  rw [u64Build, BitVec.getLsbD_or, BitVec.getLsbD_shiftLeft, BitVec.getLsbD_setWidth,
    BitVec.getLsbD_setWidth]
  by_cases hlt : i < 32
  · simp [hlt, h]
  · have hlo : lo.getLsbD i = false := BitVec.getLsbD_of_ge lo i (by omega)
    simp [hlt, h, hlo, show i - 32 < 64 by omega]

theorem getLsbD_u64Lo (x : U64) {i : ℕ} (h : i < 32) : (u64Lo x).getLsbD i = x.getLsbD i := by
  rw [u64Lo, BitVec.getLsbD_setWidth]
  simp [h]

theorem getLsbD_u64Hi (x : U64) {i : ℕ} (h : i < 32) :
    (u64Hi x).getLsbD i = x.getLsbD (32 + i) := by
  rw [u64Hi, BitVec.getLsbD_setWidth, BitVec.getLsbD_ushiftRight]
  simp [h]

theorem u64Build_hi_lo (x : U64) : u64Build (u64Hi x) (u64Lo x) = x := by
  apply BitVec.eq_of_getLsbD_eq
  intro i hi
  rw [getLsbD_u64Build _ _ hi]
  split
  case isTrue h => exact getLsbD_u64Lo x h
  case isFalse h =>
    rw [getLsbD_u64Hi x (by omega), Nat.add_sub_cancel' (by omega)]

/-- The mask of a register that is meant keeps the word, the others clear it. -/
theorem cmpeqMask_and (i j : ℕ) (x : U64) : cmpeqMask i j &&& x = if i = j then x else 0 := by
  rw [cmpeqMask]
  split
  · have hones : u64Build (-1) (-1) = BitVec.allOnes 64 := by decide
    exact (congrArg (· &&& x) hones).trans BitVec.allOnes_and
  · have hzero : u64Build (-0) (-0) = 0 := by decide
    exact (congrArg (· &&& x) hzero).trans BitVec.zero_and

theorem xor_xor_self (x v : U64) : x ^^^ (v ^^^ x) = v := by
  rw [BitVec.xor_comm v x, ← BitVec.xor_assoc, BitVec.xor_self, BitVec.zero_xor]

theorem blockThGet_eq (b : BlockTh) (r : Fin 4) : blockThGet b r.val = b.reg r := by
  simp only [blockThGet, cmpeqMask_and]
  fin_cases r <;> simp [BlockTh.reg]

theorem blockThSet_reg (b : BlockTh) (i : Fin 4) (v : U64) (r : Fin 4) :
    (blockThSet b i.val v).reg r = if i = r then v else b.reg r := by
  simp only [blockThSet, cmpeqMask_and]
  -- sixteen cases: the mask of the register that is meant, or an empty mask
  fin_cases i <;> fin_cases r <;> first | exact xor_xor_self _ _ | exact BitVec.xor_zero

theorem u64Shuffle_eq (v : Warp U64) {threadSrc : Warp ℕ} (src : Warp (Fin 32))
    (h : ∀ t, threadSrc t = (src t).val) (t : Fin 32) : u64Shuffle v threadSrc t = v (src t) := by
  simp only [u64Shuffle, h t, List.getD_eq_getElem?_getD, Vector.getElem?_toList, Fin.is_lt,
    Vector.getElem?_eq_getElem, Option.getD_some, Vector.getElem_ofFn, Fin.eta]
  exact u64Build_hi_lo (v (src t))

/-! ### The mixing of a thread -/

theorem toNat_u64Build (hi lo : U32) : (u64Build hi lo).toNat = hi.toNat * 2 ^ 32 + lo.toNat := by
  have hhi := hi.isLt
  have hlo := lo.isLt
  rw [u64Build, BitVec.toNat_or, BitVec.toNat_shiftLeft, BitVec.toNat_setWidth,
    BitVec.toNat_setWidth,
    Nat.mod_eq_of_lt (show hi.toNat < 2 ^ 64 by omega),
    Nat.mod_eq_of_lt (show lo.toNat < 2 ^ 64 by omega), Nat.shiftLeft_eq,
    Nat.mod_eq_of_lt (show hi.toNat * 2 ^ 32 < 2 ^ 64 by omega), Nat.mul_comm,
    Nat.two_pow_add_eq_or_of_lt hlo]

theorem toNat_mul_wide (x y : U32) :
    (x.setWidth 64 * y.setWidth 64 : U64).toNat = x.toNat * y.toNat := by
  have hle : x.toNat * y.toNat ≤ (2 ^ 32 - 1) * (2 ^ 32 - 1) :=
    Nat.mul_le_mul (Nat.le_pred_of_lt x.isLt) (Nat.le_pred_of_lt y.isLt)
  have hx := x.isLt
  have hy := y.isLt
  rw [BitVec.toNat_mul, BitVec.toNat_setWidth, BitVec.toNat_setWidth,
    Nat.mod_eq_of_lt (show x.toNat < 2 ^ 64 by omega),
    Nat.mod_eq_of_lt (show y.toNat < 2 ^ 64 by omega), Nat.mod_eq_of_lt (by omega)]

theorem toNat_mulHi (x y : U32) : (mulHi x y).toNat = x.toNat * y.toNat / 2 ^ 32 := by
  have hlt : x.toNat * y.toNat / 2 ^ 32 < 2 ^ 32 := by
    rw [Nat.div_lt_iff_lt_mul (by omega)]
    exact Nat.mul_lt_mul'' x.isLt y.isLt
  rw [mulHi, BitVec.toNat_setWidth, BitVec.toNat_ushiftRight, toNat_mul_wide,
    Nat.shiftRight_eq_div_pow, Nat.mod_eq_of_lt hlt]

/-- `mul_hi` and the low product together are the product. -/
theorem u64Build_mulHi (x y : U32) :
    u64Build (mulHi x y) (x * y) = x.setWidth 64 * y.setWidth 64 := by
  apply BitVec.eq_of_toNat_eq
  rw [toNat_u64Build, toNat_mulHi, toNat_mul_wide, BitVec.toNat_mul]
  omega

theorem f_eq (x y : U64) : f x y = Argon2.fBlaMka x y := by
  simp only [f, u64Build_mulHi]
  rfl

theorem getLsbD_amdBitalign (hi lo : U32) {n j : ℕ} (hn : n < 32) (hj : j < 32) :
    (amdBitalign hi lo n).getLsbD j
      = if n + j < 32 then lo.getLsbD (n + j) else hi.getLsbD (n + j - 32) := by
  rw [amdBitalign, BitVec.getLsbD_setWidth, BitVec.getLsbD_ushiftRight, Nat.mod_eq_of_lt hn,
    getLsbD_u64Build hi lo (by omega)]
  simp [hj]

/-- A bit of the two halves joined, the lower one first. -/
theorem getLsbD_amdBitalign_hi_lo (x : U64) {n j : ℕ} (hn : n < 32) (hj : j < 32) :
    (amdBitalign (u64Hi x) (u64Lo x) n).getLsbD j = x.getLsbD (n + j) := by
  rw [getLsbD_amdBitalign _ _ hn hj]
  split
  case isTrue h => exact getLsbD_u64Lo x h
  case isFalse h =>
    rw [getLsbD_u64Hi x (by omega), Nat.add_sub_cancel' (by omega)]

/-- A bit of the two halves joined the other way. -/
theorem getLsbD_amdBitalign_lo_hi (x : U64) {n j : ℕ} (hn : n < 32) (hj : j < 32) :
    (amdBitalign (u64Lo x) (u64Hi x) n).getLsbD j = x.getLsbD ((32 + (n + j)) % 64) := by
  rw [getLsbD_amdBitalign _ _ hn hj]
  split
  case isTrue h => rw [getLsbD_u64Hi x h, Nat.mod_eq_of_lt (by omega)]
  case isFalse h =>
    have hmod : (32 + (n + j)) % 64 = n + j - 32 := by omega
    rw [getLsbD_u64Lo x (by omega), hmod]

theorem getLsbD_rotateRight_mod (x : U64) {n i : ℕ} (hn : n < 64) (hi : i < 64) :
    (x.rotateRight n).getLsbD i = x.getLsbD ((n + i) % 64) := by
  rw [BitVec.getLsbD_rotateRight_of_lt hn]
  by_cases h : i < 64 - n
  · have hmod : (n + i) % 64 = n + i := by omega
    simp [h, hmod]
  · have hmod : (n + i) % 64 = i - (64 - n) := by omega
    simp [h, hi, hmod]

theorem rotr64_eq (amdMediaOps : Bool) (x : U64) {n : ℕ} (h₀ : 0 < n) (hn : n < 64) :
    rotr64 amdMediaOps x n = x.rotateRight n := by
  apply BitVec.eq_of_getLsbD_eq
  intro i hi
  rw [getLsbD_rotateRight_mod x hn hi, rotr64]
  cases amdMediaOps with
  | false =>
    rw [if_neg Bool.false_ne_true, BitVec.getLsbD_rotateLeft_of_le (by omega)]
    by_cases h : i < 64 - n
    · have hmod : (n + i) % 64 = 64 - (64 - n) + i := by omega
      simp [h, hmod]
    · have hmod : (n + i) % 64 = i - (64 - n) := by omega
      simp [h, hi, hmod]
  | true =>
    -- each half of the result is cut out of the two halves, joined in one order or the other
    rw [if_pos rfl]
    split
    case isTrue hlt =>
      rw [getLsbD_u64Build _ _ hi]
      split
      case isTrue hlow =>
        rw [getLsbD_amdBitalign_hi_lo x hlt hlow, Nat.mod_eq_of_lt (by omega)]
      case isFalse hhigh =>
        have hadd : 32 + (n + (i - 32)) = n + i := by omega
        rw [getLsbD_amdBitalign_lo_hi x hlt (by omega), hadd]
    case isFalse hge =>
      rw [getLsbD_u64Build _ _ hi]
      split
      case isTrue hlow =>
        have hadd : 32 + (n - 32 + i) = n + i := by omega
        rw [getLsbD_amdBitalign_lo_hi x (by omega) hlow, hadd]
      case isFalse hhigh =>
        have hmod : (n + i) % 64 = n - 32 + (i - 32) := by omega
        rw [getLsbD_amdBitalign_hi_lo x (by omega) (by omega), hmod]

theorem g_reg (amdMediaOps : Bool) (b : BlockTh) (r : Fin 4) :
    (g amdMediaOps b).reg r = Argon2.quarter b.reg r := by
  simp only [g, f_eq, rotr64_eq amdMediaOps _ (show 0 < 32 by omega) (show 32 < 64 by omega),
    rotr64_eq amdMediaOps _ (show 0 < 24 by omega) (show 24 < 64 by omega),
    rotr64_eq amdMediaOps _ (show 0 < 16 by omega) (show 16 < 64 by omega),
    rotr64_eq amdMediaOps _ (show 0 < 63 by omega) (show 63 < 64 by omega)]
  fin_cases r <;> rfl

/-! ### Shuffles of a warp -/

theorem shuffleReg_reg (block : Warp BlockTh) (idx : Warp (Fin 4)) (thr : Warp (Fin 32))
    (t : Fin 32) (r : Fin 4) :
    (shuffleReg block (fun t => (idx t).val) (fun t => (thr t).val) t).reg r
      = if idx t = r then (block (thr t)).reg (idx (thr t)) else (block t).reg r := by
  have hsrc := u64Shuffle_eq (fun t => blockThGet (block t) (idx t).val) thr (fun _ => rfl) t
  rw [shuffleReg, blockThSet_reg, hsrc, blockThGet_eq]

/-- In a loop each thread meets a register once: it receives what its source held before the
loop, since the source has not reached that register either. -/
theorem foldl_shuffleReg {idx : Fin 4 → Warp (Fin 4)} (hidx : ∀ t, Function.Injective (idx · t))
    (thr : Fin 4 → Warp (Fin 32)) {L : List (Fin 4)} (hL : L.Nodup) (block : Warp BlockTh)
    (t : Fin 32) (i : Fin 4) :
    (L.foldl (fun block i => shuffleReg block (fun t => (idx i t).val) fun t => (thr i t).val)
        block t).reg (idx i t)
      = if i ∈ L then (block (thr i t)).reg (idx i (thr i t)) else (block t).reg (idx i t) := by
  induction L generalizing block with
  | nil => rfl
  | cons k L ih =>
    obtain ⟨hk, hL⟩ := List.nodup_cons.mp hL
    rw [List.foldl_cons, ih hL, shuffleReg_reg, shuffleReg_reg]
    by_cases hik : i = k
    · subst hik
      rw [if_neg hk, if_pos rfl, if_pos List.mem_cons_self]
    · have hne : ∀ t, idx k t ≠ idx i t := fun t h => hik (hidx t h).symm
      simp only [if_neg (hne _), List.mem_cons, hik, false_or]

/-- The thread that a route leads from. -/
def source (route : ℕ → ℕ → ℕ) (r : Fin 4) (t : Fin 32) : Fin 32 :=
  ⟨route t.val r.val % 32, Nat.mod_lt _ (by omega)⟩

/-- A loop over the registers, each shuffled along its own route. -/
theorem shift_reg {route : ℕ → ℕ → ℕ} (hroute : ∀ (t : Fin 32) (r : Fin 4), route t.val r.val < 32)
    (block : Warp BlockTh) (t : Fin 32) (r : Fin 4) :
    ((List.range 4).foldl (fun block i =>
      shuffleReg block (fun _ => i) fun thread => route thread i)
        block t).reg r = (block (source route r t)).reg r := by
  have hthr : ∀ (i : Fin 4) (t : Fin 32), route t.val i.val = (source route i t).val := fun i t =>
    (Nat.mod_eq_of_lt (hroute t i)).symm
  have hloop := foldl_shuffleReg (fun _ => Function.injective_id) (source route)
    (List.nodup_finRange 4) block t r
  rw [if_pos (List.mem_finRange r)] at hloop
  rw [← List.map_coe_finRange_eq_range, List.foldl_map]
  simp only [hthr]
  exact hloop

/-- The register that a thread gives away in every turn of `transpose`. -/
def groupReg (t : Fin 32) : Fin 4 := Fin.ofNat 4 (threadGroup t.val)

/-- The register that a thread overwrites in turn `i`. -/
def transposeIdx (i : Fin 4) (t : Fin 32) : Fin 4 := Fin.ofNat 4 (threadGroup t.val ^^^ i.val)

/-- The thread that a word comes from in turn `i`. -/
def transposeThr (i : Fin 4) (t : Fin 32) : Fin 32 :=
  ⟨((i.val <<< 2) ^^^ t.val) % 32, Nat.mod_lt _ (by omega)⟩

theorem transposeIdx_transposeIdx (r : Fin 4) (t : Fin 32) :
    transposeIdx (transposeIdx r t) t = r := by
  revert r t
  decide

theorem transposeIdx_injective (t : Fin 32) : Function.Injective (transposeIdx · t) :=
  Function.LeftInverse.injective (g := (transposeIdx · t)) fun r => transposeIdx_transposeIdx r t

theorem transposeIdx_transposeThr (i : Fin 4) (t : Fin 32) :
    transposeIdx i (transposeThr i t) = groupReg t := by
  revert i t
  decide

theorem val_transposeIdx (i : Fin 4) (t : Fin 32) :
    (transposeIdx i t).val = threadGroup t.val ^^^ i.val := by
  revert i t
  decide

theorem val_transposeThr (i : Fin 4) (t : Fin 32) :
    (transposeThr i t).val = (i.val <<< 2) ^^^ t.val := by
  revert i t
  decide

theorem transposeThr_zero (t : Fin 32) : transposeThr 0 t = t := by
  revert t
  decide

theorem transpose_reg (block : Warp BlockTh) (t : Fin 32) (r : Fin 4) :
    (transpose block t).reg r
      = (block (transposeThr (transposeIdx r t) t)).reg (groupReg t) := by
  have hloop := foldl_shuffleReg transposeIdx_injective transposeThr (L := [1, 2, 3]) (by decide)
    block t (transposeIdx r t)
  have hrange : List.range' 1 3 = ([1, 2, 3] : List (Fin 4)).map Fin.val := rfl
  rw [transpose, hrange, List.foldl_map]
  simp only [← val_transposeIdx, ← val_transposeThr]
  rw [transposeIdx_transposeIdx, transposeIdx_transposeThr] at hloop
  rw [hloop]
  split
  case isTrue => rfl
  case isFalse h =>
    -- turn 0 is left out: the register of the group stays where it is
    have hzero : ∀ i : Fin 4, i ∉ ([1, 2, 3] : List (Fin 4)) → i = 0 := by decide
    have hi := hzero _ h
    have hr := transposeIdx_transposeIdx r t
    rw [hi] at hr
    rw [hi, transposeThr_zero, ← transposeIdx_transposeThr 0 t, transposeThr_zero, hr]

/-! ### Two mixings on a line -/

theorem diagonalWord_eq (m r : Fin 4) : Argon2.diagonalWord m r = Argon2.columnWord (m + r) r := by
  revert m r
  decide

/-- The threads that share a line of 16 words hold its columns; a shift turns them into its
diagonals and back.  With a mixing before each shift the line goes through P. -/
theorem permuteLines_reg (amdMediaOps : Bool) (line : Warp (Fin 8)) (col : Warp (Fin 4))
    {shift unshift : Warp BlockTh → Warp BlockTh} {src back : Fin 4 → Warp (Fin 32)}
    (hshift : ∀ w t r, (shift w t).reg r = (w (src r t)).reg r)
    (hunshift : ∀ w t r, (unshift w t).reg r = (w (back r t)).reg r)
    (hsrc : ∀ r t, line (src r t) = line t ∧ col (src r t) = col t + r)
    (hback : ∀ r t, line (back r t) = line t ∧ col (back r t) + r = col t)
    (v : Fin 8 → Vector U64 16) {w : Warp BlockTh}
    (hw : ∀ t r, (w t).reg r = (v (line t)).get (Argon2.columnWord (col t) r)) (t : Fin 32)
    (r : Fin 4) :
    (unshift (fun t => g amdMediaOps (shift (fun t => g amdMediaOps (w t)) t)) t).reg r
      = (Argon2.P (v (line t))).get (Argon2.columnWord (col t) r) := by
  set u := fun i => Argon2.halfRound Argon2.columnWord (v i) with hu
  have hmixed : ∀ t r, (g amdMediaOps (w t)).reg r
      = (u (line t)).get (Argon2.columnWord (col t) r) := by
    intro t r
    have hreg : (w t).reg = fun k => (v (line t)).get (Argon2.columnWord (col t) k) :=
      funext (hw t)
    rw [g_reg, hreg, hu, Argon2.get_halfRound Argon2.columnWord_injective]
  have hshifted : ∀ t, (shift (fun t => g amdMediaOps (w t)) t).reg
      = fun r => (u (line t)).get (Argon2.diagonalWord (col t) r) := by
    intro t
    funext r
    rw [hshift, hmixed, (hsrc r t).1, (hsrc r t).2, diagonalWord_eq]
  have hcol : Argon2.columnWord (col t) r = Argon2.diagonalWord (col (back r t)) r := by
    rw [diagonalWord_eq, (hback r t).2]
  rw [hunshift, g_reg, hshifted, hcol, ← (hback r t).1, Argon2.P_eq,
    Argon2.get_halfRound Argon2.diagonalWord_injective]

/-! ### The whole block -/

/-- The word of a block that register `r` of thread `t` holds. -/
def blockWord (r : Fin 4) (t : Fin 32) : Fin 128 := Fin.ofNat 128 (32 * r.val + t.val)

/-- A warp that holds a block as `load_block` spreads it. -/
def Spread (w : Warp BlockTh) (R : Argon2.Block) : Prop :=
  ∀ t r, (w t).reg r = R.get (blockWord r t)

/-- Word `k` of row `i` and of column `i`. -/
def wordOfRow (i : Fin 8) (k : Fin 16) : Fin 128 := Fin.ofNat 128 (16 * i.val + k.val)

def wordOfColumn (i : Fin 8) (k : Fin 16) : Fin 128 :=
  Fin.ofNat 128 (2 * i.val + 16 * (k.val / 2) + k.val % 2)

theorem val_wordOfRow (i : Fin 8) (k : Fin 16) : (wordOfRow i k).val = 16 * i.val + k.val :=
  Nat.mod_eq_of_lt (by omega)

theorem val_wordOfColumn (i : Fin 8) (k : Fin 16) :
    (wordOfColumn i k).val = 2 * i.val + 16 * (k.val / 2) + k.val % 2 :=
  Nat.mod_eq_of_lt (by omega)

theorem get_row (R : Argon2.Block) (i : Fin 8) (k : Fin 16) :
    (Argon2.row R i).get k = R.get (wordOfRow i k) := by
  have hword : wordOfRow i k = ⟨16 * i.val + k.val, by omega⟩ := Fin.ext (val_wordOfRow i k)
  rw [Argon2.row, get_ofFn, hword]
  rfl

theorem get_column (R : Argon2.Block) (i : Fin 8) (k : Fin 16) :
    (Argon2.column R i).get k = R.get (wordOfColumn i k) := by
  have hword : wordOfColumn i k = ⟨2 * i.val + 16 * (k.val / 2) + k.val % 2, by omega⟩ :=
    Fin.ext (val_wordOfColumn i k)
  rw [Argon2.column, get_ofFn, hword]
  rfl

theorem get_permuteRows (R : Argon2.Block) (i : Fin 8) (k : Fin 16) :
    (Argon2.permuteRows R).get (wordOfRow i k) = (Argon2.P (Argon2.row R i)).get k := by
  have hd : (wordOfRow i k).val / 16 = i.val := by
    rw [val_wordOfRow]
    omega
  have hm : (wordOfRow i k).val % 16 = k.val := by
    rw [val_wordOfRow]
    omega
  rw [Argon2.permuteRows, get_ofFn]
  simp only [hd, hm, Vector.getElem_ofFn]
  rfl

theorem get_permuteColumns (R : Argon2.Block) (i : Fin 8) (k : Fin 16) :
    (Argon2.permuteColumns R).get (wordOfColumn i k) = (Argon2.P (Argon2.column R i)).get k := by
  have hd : (wordOfColumn i k).val % 16 / 2 = i.val := by
    rw [val_wordOfColumn]
    omega
  have hm : 2 * ((wordOfColumn i k).val / 16) + (wordOfColumn i k).val % 2 = k.val := by
    rw [val_wordOfColumn]
    omega
  rw [Argon2.permuteColumns, get_ofFn]
  simp only [hd, hm, Vector.getElem_ofFn]
  rfl

/-- The row of a thread after the first `transpose`, and its place in it. -/
def rowLine (t : Fin 32) : Fin 8 := ⟨2 * (t.val / 4 % 4) + t.val / 16, by omega⟩

def rowCol (t : Fin 32) : Fin 4 := Fin.ofNat 4 t.val

/-- The column of a thread after the second one, and its place in it. -/
def columnLine (t : Fin 32) : Fin 8 := ⟨t.val % 16 / 2, by omega⟩

def columnCol (t : Fin 32) : Fin 4 := Fin.ofNat 4 (2 * (t.val / 16) + t.val % 2)

theorem transposed_word (r : Fin 4) (t : Fin 32) :
    blockWord (groupReg t) (transposeThr (transposeIdx r t) t)
      = wordOfRow (rowLine t) (Argon2.columnWord (rowCol t) r) := by
  revert r t
  decide

/-- The second `transpose` brings every word of a row back. -/
theorem word_transposed (r : Fin 4) (t : Fin 32) :
    wordOfRow (rowLine (transposeThr (transposeIdx r t) t))
        (Argon2.columnWord (rowCol (transposeThr (transposeIdx r t) t)) (groupReg t))
      = blockWord r t := by
  revert r t
  decide

theorem blockWord_column (r : Fin 4) (t : Fin 32) :
    blockWord r t = wordOfColumn (columnLine t) (Argon2.columnWord (columnCol t) r) := by
  revert r t
  decide

theorem shuffleShift1_reg (w : Warp BlockTh) (t : Fin 32) (r : Fin 4) :
    (shuffleShift1 w t).reg r = (w (source applyShuffleShift1 r t)).reg r :=
  shift_reg (by decide) w t r

theorem shuffleUnshift1_reg (w : Warp BlockTh) (t : Fin 32) (r : Fin 4) :
    (shuffleUnshift1 w t).reg r = (w (source applyShuffleUnshift1 r t)).reg r :=
  shift_reg (by decide) w t r

theorem shuffleShift2_reg (w : Warp BlockTh) (t : Fin 32) (r : Fin 4) :
    (shuffleShift2 w t).reg r = (w (source applyShuffleShift2 r t)).reg r :=
  shift_reg (by decide) w t r

theorem shuffleUnshift2_reg (w : Warp BlockTh) (t : Fin 32) (r : Fin 4) :
    (shuffleUnshift2 w t).reg r = (w (source applyShuffleUnshift2 r t)).reg r :=
  shift_reg (by decide) w t r

/-- The first half of the kernel's permutation takes a spread block through P rowwise. -/
theorem rows_spread (amdMediaOps : Bool) {w : Warp BlockTh} {R : Argon2.Block} (h : Spread w R) :
    Spread (transpose (shuffleUnshift1 fun t => g amdMediaOps
      (shuffleShift1 (fun t => g amdMediaOps (transpose w t)) t))) (Argon2.permuteRows R) := by
  have hlines : ∀ t r, (transpose w t).reg r
      = (Argon2.row R (rowLine t)).get (Argon2.columnWord (rowCol t) r) := by
    intro t r
    rw [transpose_reg, h, transposed_word, get_row]
  have hP := permuteLines_reg amdMediaOps rowLine rowCol shuffleShift1_reg shuffleUnshift1_reg
    (by decide) (by decide) (Argon2.row R) hlines
  intro t r
  rw [transpose_reg, hP, ← get_permuteRows, word_transposed]

/-- The second half takes it through P columnwise. -/
theorem columns_spread (amdMediaOps : Bool) {w : Warp BlockTh} {R : Argon2.Block}
    (h : Spread w R) :
    Spread (shuffleUnshift2 fun t => g amdMediaOps
      (shuffleShift2 (fun t => g amdMediaOps (w t)) t)) (Argon2.permuteColumns R) := by
  have hlines : ∀ t r, (w t).reg r
      = (Argon2.column R (columnLine t)).get (Argon2.columnWord (columnCol t) r) := by
    intro t r
    rw [h, blockWord_column, get_column]
  have hP := permuteLines_reg amdMediaOps columnLine columnCol shuffleShift2_reg
    shuffleUnshift2_reg (by decide) (by decide) (Argon2.column R) hlines
  intro t r
  rw [hP, ← get_permuteColumns, ← blockWord_column]

theorem shuffleBlock_spread (amdMediaOps : Bool) {w : Warp BlockTh} {R : Argon2.Block}
    (h : Spread w R) : Spread (shuffleBlock amdMediaOps w) (Argon2.permute R) :=
  columns_spread amdMediaOps (rows_spread amdMediaOps h)

end Kernel
