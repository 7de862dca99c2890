/-
The table of references: `argon2_precompute_kernel` of `src/argon2_kernel.cl`.

The first half of the first pass of Argon2id takes its references from address
blocks that do not depend on the memory.  One warp computes one address block and
stores the 128 references it yields; the warps may run in any order.

* `nextAddresses_spread` — the warp holds the address block of RFC 9106, although it
  leaves out the addition of the zero block;
* `precomputeStep_place` — what a turn of a thread leaves at a place of the table;
* `referenceTable_right` — after all warps, in any order, the whole table is right;
* `argon2PrecomputeKernel_frame` — a warp changes nothing outside its segment.
-/
import VelkarMiner.Loops
import VelkarMiner.ReferencePositions

open Bytes

namespace Kernel

/-! ### The kernel -/

/-- `struct ref`. -/
structure Ref where
  refLane : U32
  refIndex : U32

def xorBlock (dst src : Warp BlockTh) : Warp BlockTh := fun thread =>
  { a := (dst thread).a ^^^ (src thread).a
    b := (dst thread).b ^^^ (src thread).b
    c := (dst thread).c ^^^ (src thread).c
    d := (dst thread).d ^^^ (src thread).d }

def nextAddresses (amdMediaOps : Bool) (threadInput : Warp U32) : Warp BlockTh :=
  let addr : Warp BlockTh := fun thread => ⟨u64Build 0 (threadInput thread), 0, 0, 0⟩
  let addr := shuffleBlock amdMediaOps addr
  let addr : Warp BlockTh := fun thread =>
    { addr thread with a := (addr thread).a ^^^ u64Build 0 (threadInput thread) }
  let tmp := addr
  let addr := shuffleBlock amdMediaOps addr
  xorBlock addr tmp

/-- `argon2_precompute_kernel` for one warp; the type is Argon2id, `ARGON2_TYPE = 2`. -/
def argon2PrecomputeKernel (amdMediaOps : Bool) (passes lanes segmentBlocks : U32)
    (refs : Buffer Ref) (blockId : U32) : Buffer Ref :=
  let segmentAddrBlocks := (segmentBlocks + 128 - 1) / 128
  let block := blockId % segmentAddrBlocks
  let segment := blockId / segmentAddrBlocks
  let slice := segment % 2
  let lane := segment / 2
  let pass := 0
  let threadInput : Warp U32 := fun thread =>
    [pass, lane, slice, lanes * segmentBlocks * 4, passes, 2, block + 1].getD thread.val 0
  let addr := nextAddresses amdMediaOps threadInput
  let first := (segment * segmentBlocks).toNat
  (List.range 4).foldl (fun refs i => (List.finRange 32).foldl (fun refs thread =>
    let pos := BitVec.ofNat 32 (i * 32 + thread.val)
    let offset := block * 128 + pos
    if offset < segmentBlocks then
      let v := blockThGet (addr thread) i
      let (refLane, refIndex) :=
        computeRefPos lanes segmentBlocks pass lane slice offset (u64Hi v) (u64Lo v)
      Function.update refs (first + offset.toNat) ⟨refLane, refIndex⟩
    else refs) refs) refs

/-! ### The address block -/

theorem xorBlock_spread {v w : Warp BlockTh} {X Y : Argon2.Block} (hv : Spread v X)
    (hw : Spread w Y) : Spread (xorBlock v w) (Argon2.xorBlock X Y) := by
  intro t r
  have hreg : (xorBlock v w t).reg r = (v t).reg r ^^^ (w t).reg r := by
    fin_cases r <;> rfl
  rw [hreg, hv, hw]
  exact (Vector.getElem_zipWith (blockWord r t).isLt).symm

/-- The block with one word in each thread, all in the first quarter. -/
def inputBlock (threadInput : Warp U32) : Argon2.Block :=
  Vector.ofFn fun w => if h : w.val < 32 then (threadInput ⟨w.val, h⟩).setWidth 64 else 0

theorem u64Build_zero (x : U32) : u64Build 0 x = x.setWidth 64 := by
  have hhigh : (0 : U32).setWidth 64 <<< 32 = 0#64 := by decide
  rw [u64Build, hhigh, BitVec.zero_or]

theorem inputBlock_get (threadInput : Warp U32) (t : Fin 32) (r : Fin 4) :
    (inputBlock threadInput).get (blockWord r t)
      = if r = 0 then u64Build 0 (threadInput t) else 0 := by
  have hval : (blockWord r t).val = 32 * r.val + t.val := Nat.mod_eq_of_lt (by omega)
  rw [inputBlock, get_ofFn]
  by_cases hr : r = 0
  · have hlow : (blockWord r t).val < 32 := by
      rw [hval, hr]
      exact (Nat.zero_add t.val).symm ▸ t.isLt
    have ht : (⟨(blockWord r t).val, hlow⟩ : Fin 32) = t := by
      apply Fin.ext
      show (blockWord r t).val = t.val
      rw [hval, hr]
      exact Nat.zero_add t.val
    rw [dif_pos hlow, if_pos hr, ht, u64Build_zero]
  · have hpos : 0 < r.val := Nat.pos_of_ne_zero fun h => hr (Fin.ext h)
    rw [dif_neg (by omega), if_neg hr]

theorem input_spread (threadInput : Warp U32) :
    Spread (fun thread => ⟨u64Build 0 (threadInput thread), 0, 0, 0⟩) (inputBlock threadInput) := by
  intro t r
  rw [inputBlock_get]
  fin_cases r <;> rfl

theorem xorBlock_zeroBlock (X : Argon2.Block) : Argon2.xorBlock Argon2.zeroBlock X = X := by
  apply Vector.ext
  intro i hi
  rw [Argon2.xorBlock, Vector.getElem_zipWith, Argon2.zeroBlock, Vector.getElem_replicate]
  exact BitVec.zero_xor

/-- G with the zero block. -/
theorem compressG_zeroBlock (X : Argon2.Block) :
    Argon2.compressG Argon2.zeroBlock X = Argon2.xorBlock (Argon2.permute X) X := by
  rw [Argon2.compressG, xorBlock_zeroBlock]

/-- Adding to the first register only. -/
theorem addFirst_reg (b : BlockTh) (x : U64) (r : Fin 4) :
    ({ b with a := b.a ^^^ x } : BlockTh).reg r = b.reg r ^^^ (if r = 0 then x else 0) := by
  fin_cases r
  · rfl
  · exact BitVec.xor_zero.symm
  · exact BitVec.xor_zero.symm
  · exact BitVec.xor_zero.symm

/-- The registers that the kernel leaves alone would be added to zero. -/
theorem addFirst_spread {w : Warp BlockTh} {R : Argon2.Block} (h : Spread w R)
    (threadInput : Warp U32) :
    Spread (fun thread =>
      { w thread with a := (w thread).a ^^^ u64Build 0 (threadInput thread) })
      (Argon2.xorBlock R (inputBlock threadInput)) := by
  intro t r
  rw [addFirst_reg, h, ← inputBlock_get]
  exact (Vector.getElem_zipWith (blockWord r t).isLt).symm

theorem nextAddresses_spread (amdMediaOps : Bool) (threadInput : Warp U32) :
    Spread (nextAddresses amdMediaOps threadInput)
      (Argon2.compressG Argon2.zeroBlock
        (Argon2.compressG Argon2.zeroBlock (inputBlock threadInput))) := by
  have hfirst := addFirst_spread
    (shuffleBlock_spread amdMediaOps (input_spread threadInput)) threadInput
  rw [← compressG_zeroBlock] at hfirst
  rw [compressG_zeroBlock (Argon2.compressG Argon2.zeroBlock (inputBlock threadInput)),
    nextAddresses]
  exact xorBlock_spread (shuffleBlock_spread amdMediaOps hfirst) hfirst

/-! ### What a warp may change -/

/-- A warp changes no entry beyond those of its segment. -/
theorem argon2PrecomputeKernel_frame (amdMediaOps : Bool) (passes lanes segmentBlocks blockId : U32)
    (refs : Buffer Ref) {a : ℕ}
    (ha : ∀ offset < segmentBlocks.toNat,
      a ≠ (blockId / ((segmentBlocks + 128 - 1) / 128) * segmentBlocks).toNat + offset) :
    argon2PrecomputeKernel amdMediaOps passes lanes segmentBlocks refs blockId a = refs a := by
  rw [argon2PrecomputeKernel]
  refine Loops.foldl_frame (fun refs : Buffer Ref => refs a) (fun refs i => ?_) _ _
  refine Loops.foldl_frame (fun refs : Buffer Ref => refs a) (fun refs thread => ?_) _ _
  dsimp only
  split
  case isTrue hlt => exact Function.update_of_ne (ha _ hlt) _ _
  case isFalse => rfl

/-! ### What `compute_ref_pos` is for -/

/-- The reference that the value J1 ∥ J2 selects. -/
def refOf (p : Argon2.Params) (x : Argon2.Pos) (X : U64) : Ref :=
  ⟨BitVec.ofNat 32 (Argon2.refLane p x (Argon2.J2 X)),
    BitVec.ofNat 32 (Argon2.refColumn p x (Argon2.refLane p x (Argon2.J2 X)) (Argon2.J1 X))⟩

theorem eq_ofNat_toNat {x : U32} {n : ℕ} (h : x.toNat = n) : x = BitVec.ofNat 32 n := by
  rw [← h, BitVec.ofNat_toNat, BitVec.setWidth_eq]

theorem computeRefPos_refOf {lanes segmentBlocks pass lane slice offset : U32}
    {p : Argon2.Params} (h : RefPosArgs lanes segmentBlocks pass lane slice offset p) (X : U64) :
    computeRefPos lanes segmentBlocks pass lane slice offset (u64Hi X) (u64Lo X)
      = ((refOf p (posOf pass slice lane offset) X).refLane,
        (refOf p (posOf pass slice lane offset) X).refIndex) := by
  obtain ⟨hlane, hindex⟩ := computeRefPos_spec h (u64Hi X) (u64Lo X)
  exact Prod.ext (eq_ofNat_toNat hlane) (eq_ofNat_toNat hindex)

/-! ### The entries of the table -/

/-- The arguments of `argon2_precompute_kernel`. -/
structure TableArgs (passes lanes segmentBlocks : U32) (p : Argon2.Params) : Prop where
  passes_eq : p.passes = passes.toNat
  lanes_eq : p.lanes = lanes.toNat
  segLen_eq : p.segLen = segmentBlocks.toNat
  two_le : 2 ≤ segmentBlocks.toNat
  bounded : lanes.toNat * (8 * segmentBlocks.toNat) ≤ 2 ^ 32

/-- Blocks of addresses in a segment. -/
def addrBlocks (p : Argon2.Params) : ℕ := (p.segLen + 127) / 128

theorem addressIndex_lt (x : Argon2.Pos) : x.offset % 128 < 128 :=
  Nat.mod_lt _ (Nat.succ_pos 127)

/-- The value J1 ∥ J2 of a position in the first half of the first pass. -/
def addressWord (p : Argon2.Params) (x : Argon2.Pos) : U64 :=
  (Argon2.addressBlock p x (x.offset / 128 + 1)).get ⟨x.offset % 128, addressIndex_lt x⟩

/-- The place of a position in the table. -/
def refPlace (p : Argon2.Params) (x : Argon2.Pos) : ℕ :=
  (2 * x.lane + x.slice) * p.segLen + x.offset

/-- The warp that computes its address block. -/
def refWarp (p : Argon2.Params) (x : Argon2.Pos) : ℕ :=
  (2 * x.lane + x.slice) * addrBlocks p + x.offset / 128

/-- A position in the first half of the first pass. -/
structure InTable (p : Argon2.Params) (x : Argon2.Pos) : Prop where
  valid : x.Valid p
  pass_eq : x.pass = 0
  slice_lt : x.slice < 2
  lane_lt : x.lane < p.lanes

section

variable {passes lanes segmentBlocks : U32} {p : Argon2.Params}

theorem TableArgs.segment_bounded (h : TableArgs passes lanes segmentBlocks p)
    (hlanes : 0 < lanes.toNat) : 8 * segmentBlocks.toNat ≤ 2 ^ 32 :=
  (Nat.le_mul_of_pos_left _ hlanes).trans h.bounded

/-- `segment_addr_blocks`. -/
theorem segmentAddrBlocks_toNat (h : TableArgs passes lanes segmentBlocks p)
    (hlanes : 0 < lanes.toNat) :
    ((segmentBlocks + 128 - 1) / 128).toNat = addrBlocks p := by
  have hb := h.segment_bounded hlanes
  have hadd : (segmentBlocks + 128).toNat = segmentBlocks.toNat + 128 :=
    BitVec.toNat_add_of_lt (show segmentBlocks.toNat + 128 < 2 ^ 32 by omega)
  have hsub : (segmentBlocks + 128 - 1).toNat = segmentBlocks.toNat + 127 := by
    rw [BitVec.toNat_sub_of_le (by rw [BitVec.le_def, hadd]; show 1 ≤ _; omega), hadd]
    rfl
  rw [BitVec.toNat_udiv, hsub, addrBlocks, h.segLen_eq]
  rfl

theorem InTable.block_lt {x : Argon2.Pos} (hx : InTable p x) : x.offset / 128 < addrBlocks p := by
  have hoff := hx.valid.offset_lt
  rw [addrBlocks]
  omega

theorem InTable.refWarp_lt {x : Argon2.Pos} (hx : InTable p x) :
    refWarp p x < 2 * p.lanes * addrBlocks p := by
  have hslice := hx.slice_lt
  have hlane := hx.lane_lt
  have hblock := hx.block_lt
  have hrow : (2 * x.lane + x.slice + 1) * addrBlocks p ≤ 2 * p.lanes * addrBlocks p :=
    Nat.mul_le_mul_right _ (by omega)
  rw [Nat.add_one_mul] at hrow
  rw [refWarp]
  omega

/-- The number of warps fits into 32 bits. -/
theorem TableArgs.warps_lt (h : TableArgs passes lanes segmentBlocks p) :
    2 * p.lanes * addrBlocks p < 2 ^ 32 := by
  have hb := h.bounded
  have htwo := h.two_le
  have hA : addrBlocks p ≤ segmentBlocks.toNat := by
    rw [addrBlocks, h.segLen_eq]
    omega
  have hmul : lanes.toNat * addrBlocks p ≤ lanes.toNat * segmentBlocks.toNat :=
    Nat.mul_le_mul_left _ hA
  rw [h.lanes_eq]
  nlinarith

/-- The input of the address generator. -/
theorem inputBlock_eq (h : TableArgs passes lanes segmentBlocks p) {lane slice counter : U32}
    {x : Argon2.Pos} (hpass : x.pass = 0) (hlane : lane.toNat = x.lane)
    (hslice : slice.toNat = x.slice) :
    inputBlock (fun thread =>
        [0, lane, slice, lanes * segmentBlocks * 4, passes, 2, counter].getD thread.val 0)
      = Argon2.addressInput p x counter.toNat := by
  have hb := h.bounded
  have hmul : (lanes * segmentBlocks).toNat = lanes.toNat * segmentBlocks.toNat :=
    BitVec.toNat_mul_of_lt (by nlinarith)
  have hblocks : (lanes * segmentBlocks * 4).toNat = p.lanes * p.laneLen := by
    have hlt : (lanes * segmentBlocks).toNat * (4 : U32).toNat < 2 ^ 32 := by
      rw [hmul]
      show lanes.toNat * segmentBlocks.toNat * 4 < 2 ^ 32
      nlinarith
    rw [BitVec.toNat_mul_of_lt hlt, hmul, Argon2.Params.laneLen, h.lanes_eq, h.segLen_eq]
    show lanes.toNat * segmentBlocks.toNat * 4 = _
    ring
  have hwide : ∀ y : U32, y.setWidth 64 = BitVec.ofNat 64 y.toNat := fun y => by
    apply BitVec.eq_of_toNat_eq
    rw [BitVec.toNat_setWidth, BitVec.toNat_ofNat]
  -- the seven words of the kernel, in 64 bits, are those of RFC 9106
  have hlist : [0, lane, slice, lanes * segmentBlocks * 4, passes, 2, counter].map
        (BitVec.setWidth 64)
      = [x.pass, x.lane, x.slice, p.lanes * p.laneLen, p.passes, 2, counter.toNat].map
        (BitVec.ofNat 64) := by
    simp only [List.map_cons, List.map_nil, hwide, hpass, hlane, hslice, hblocks, h.passes_eq]
    rfl
  apply Vector.ext
  intro w hw
  rw [inputBlock, Argon2.addressInput, Vector.getElem_ofFn, Vector.getElem_ofFn, ← hlist]
  dsimp only
  have hmap :
      ∀ (L : List U32), (L.map (BitVec.setWidth 64)).getD w 0 = (L.getD w 0).setWidth 64 := by
    intro L
    rw [List.getD_eq_getElem?_getD, List.getD_eq_getElem?_getD, List.getElem?_map]
    exact Option.getD_map (BitVec.setWidth 64) 0 L[w]?
  rw [hmap]
  split
  case isTrue => rfl
  case isFalse hge =>
    rw [List.getD_eq_getElem?_getD, List.getElem?_eq_none (show 7 ≤ w by omega)]
    rfl

/-- The numbers of a warp. -/
theorem warp_numbers (h : TableArgs passes lanes segmentBlocks p) (hlanes : 0 < lanes.toNat)
    {blockId : U32} (hid : blockId.toNat < 2 * p.lanes * addrBlocks p) {pos : ℕ}
    (hpos : pos < 128) :
    (blockId / ((segmentBlocks + 128 - 1) / 128)).toNat = blockId.toNat / addrBlocks p
      ∧ (blockId % ((segmentBlocks + 128 - 1) / 128)).toNat = blockId.toNat % addrBlocks p
      ∧ (blockId / ((segmentBlocks + 128 - 1) / 128) * segmentBlocks).toNat
        = blockId.toNat / addrBlocks p * p.segLen
      ∧ (blockId % ((segmentBlocks + 128 - 1) / 128) * 128 + BitVec.ofNat 32 pos).toNat
        = blockId.toNat % addrBlocks p * 128 + pos := by
  have hb := h.bounded
  have hseg := h.segment_bounded hlanes
  have htwo := h.two_le
  have haddr := segmentAddrBlocks_toNat h hlanes
  have hApos : 0 < addrBlocks p := by
    rw [addrBlocks, h.segLen_eq]
    omega
  have hAle : addrBlocks p * 128 ≤ segmentBlocks.toNat + 127 := by
    rw [addrBlocks, h.segLen_eq]
    exact Nat.div_mul_le_self _ _
  -- none of the products wraps, since the memory has at most 2^32 blocks
  have hdiv : (blockId / ((segmentBlocks + 128 - 1) / 128)).toNat
      = blockId.toNat / addrBlocks p := by
    rw [BitVec.toNat_udiv, haddr]
  have hmod : (blockId % ((segmentBlocks + 128 - 1) / 128)).toNat
      = blockId.toNat % addrBlocks p := by
    rw [BitVec.toNat_umod, haddr]
  have hsegment : blockId.toNat / addrBlocks p < 2 * lanes.toNat := by
    rw [← h.lanes_eq]
    exact Nat.div_lt_of_lt_mul (by rwa [Nat.mul_comm])
  have hblock : blockId.toNat % addrBlocks p < addrBlocks p := Nat.mod_lt _ hApos
  have h128 : (blockId % ((segmentBlocks + 128 - 1) / 128) * 128).toNat
      = blockId.toNat % addrBlocks p * 128 := by
    rw [BitVec.toNat_mul_of_lt, hmod]
    · rfl
    · rw [hmod]
      show _ * 128 < 2 ^ 32
      omega
  have hposition : (BitVec.ofNat 32 pos).toNat = pos := by
    rw [BitVec.toNat_ofNat, Nat.mod_eq_of_lt (by omega)]
  refine ⟨hdiv, hmod, ?_, ?_⟩
  · rw [BitVec.toNat_mul_of_lt (by rw [hdiv]; nlinarith), hdiv, h.segLen_eq]
  · rw [BitVec.toNat_add_of_lt (by rw [h128, hposition]; omega), h128, hposition]

/-- What a warp computes for an entry of the table. -/
theorem entry_right (amdMediaOps : Bool) (h : TableArgs passes lanes segmentBlocks p)
    {x : Argon2.Pos} (hx : InTable p x) {block segment : U32} {i : ℕ} (hi : i < 4) (thread : Fin 32)
    (hsegment : segment.toNat = 2 * x.lane + x.slice)
    (hoffset : (block * 128 + BitVec.ofNat 32 (i * 32 + thread.val)).toNat = x.offset)
    (hblock : block.toNat * 128 + (i * 32 + thread.val) = x.offset) :
    let addr := nextAddresses amdMediaOps fun thread =>
      [0, segment / 2, segment % 2, lanes * segmentBlocks * 4, passes, 2, block + 1].getD
        thread.val 0
    let v := blockThGet (addr thread) i
    computeRefPos lanes segmentBlocks 0 (segment / 2) (segment % 2)
        (block * 128 + BitVec.ofNat 32 (i * 32 + thread.val)) (u64Hi v) (u64Lo v)
      = ((refOf p x (addressWord p x)).refLane, (refOf p x (addressWord p x)).refIndex) := by
  intro addr v
  have hslicelt := hx.slice_lt
  have hlt : x.offset < segmentBlocks.toNat := h.segLen_eq ▸ hx.valid.offset_lt
  have hlanes : x.lane < lanes.toNat := h.lanes_eq ▸ hx.lane_lt
  have hb := h.segment_bounded (by omega)
  have hlane : (segment / 2).toNat = x.lane := by
    rw [BitVec.toNat_udiv, hsegment]
    show (2 * x.lane + x.slice) / 2 = _
    omega
  have hslice : (segment % 2).toNat = x.slice := by
    rw [BitVec.toNat_umod, hsegment]
    show (2 * x.lane + x.slice) % 2 = _
    omega
  have hcounter : (block + 1).toNat = x.offset / 128 + 1 := by
    have hone : (block + 1).toNat = block.toNat + 1 :=
      BitVec.toNat_add_of_lt (show block.toNat + 1 < 2 ^ 32 by omega)
    omega
  -- the word of the address block that this thread holds in its register `i`
  have hv : v = addressWord p x := by
    have hspread := nextAddresses_spread amdMediaOps fun thread =>
      [0, segment / 2, segment % 2, lanes * segmentBlocks * 4, passes, 2, block + 1].getD
        thread.val 0
    rw [inputBlock_eq h hx.pass_eq hlane hslice, hcounter] at hspread
    have hword : blockWord ⟨i, hi⟩ thread
        = ⟨x.offset % 128, Nat.mod_lt _ (Nat.succ_pos 127)⟩ := by
      apply Fin.ext
      show (32 * i + thread.val) % 128 = x.offset % 128
      omega
    rw [addressWord, ← hword]
    exact (blockThGet_eq (addr thread) ⟨i, hi⟩).trans (hspread thread ⟨i, hi⟩)
  have hpos : posOf 0 (segment % 2) (segment / 2)
      (block * 128 + BitVec.ofNat 32 (i * 32 + thread.val)) = x := by
    rw [posOf, hlane, hslice, hoffset]
    exact congrArg (fun pass => (⟨pass, x.slice, x.lane, x.offset⟩ : Argon2.Pos)) hx.pass_eq.symm
  have hargs : RefPosArgs lanes segmentBlocks 0 (segment / 2) (segment % 2)
      (block * 128 + BitVec.ofNat 32 (i * 32 + thread.val)) p :=
    { lanes_eq := h.lanes_eq
      segLen_eq := h.segLen_eq
      two_le := h.two_le
      bounded := hb
      lane_lt := by rwa [hlane]
      valid := by
        rw [hpos]
        exact hx.valid }
  rw [computeRefPos_refOf hargs, hpos, hv]

/-- No other warp, thread or register meets a place of the table with another value. -/
theorem place_unique {x : Argon2.Pos} (hx : InTable p x) {segment offset : ℕ}
    (hlt : offset < p.segLen)
    (hplace : segment * p.segLen + offset = refPlace p x) :
    segment = 2 * x.lane + x.slice ∧ offset = x.offset := by
  have hpos : 0 < p.segLen := Nat.zero_lt_of_lt hlt
  have hoffset : offset = x.offset := by
    rw [← Nat.mul_add_mod_of_lt hlt, hplace, refPlace, Nat.mul_add_mod_of_lt hx.valid.offset_lt]
  rw [refPlace, hoffset] at hplace
  exact ⟨Nat.eq_of_mul_eq_mul_right hpos (Nat.add_right_cancel hplace), hoffset⟩

/-- One turn of the kernel's loop in one thread. -/
def precomputeStep (amdMediaOps : Bool) (passes lanes segmentBlocks blockId : U32) (i : ℕ)
    (refs : Buffer Ref) (thread : Fin 32) : Buffer Ref :=
  let block := blockId % ((segmentBlocks + 128 - 1) / 128)
  let segment := blockId / ((segmentBlocks + 128 - 1) / 128)
  let offset := block * 128 + BitVec.ofNat 32 (i * 32 + thread.val)
  let addr := nextAddresses amdMediaOps fun thread =>
    [0, segment / 2, segment % 2, lanes * segmentBlocks * 4, passes, 2, block + 1].getD thread.val 0
  let v := blockThGet (addr thread) i
  if offset < segmentBlocks then
    let ref := computeRefPos lanes segmentBlocks 0 (segment / 2) (segment % 2) offset
      (u64Hi v) (u64Lo v)
    Function.update refs ((segment * segmentBlocks).toNat + offset.toNat) ⟨ref.1, ref.2⟩
  else refs

theorem argon2PrecomputeKernel_eq (amdMediaOps : Bool) (passes lanes segmentBlocks : U32)
    (refs : Buffer Ref) (blockId : U32) :
    argon2PrecomputeKernel amdMediaOps passes lanes segmentBlocks refs blockId
      = (List.range 4).foldl (fun refs i => (List.finRange 32).foldl
          (precomputeStep amdMediaOps passes lanes segmentBlocks blockId i) refs) refs := rfl

/-- A turn that stores at a place of the table stores the right reference. -/
theorem precomputeStep_place (amdMediaOps : Bool) (h : TableArgs passes lanes segmentBlocks p)
    {x : Argon2.Pos} (hx : InTable p x) {blockId : U32}
    (hid : blockId.toNat < 2 * p.lanes * addrBlocks p) {i : ℕ} (hi : i < 4) (thread : Fin 32)
    (refs : Buffer Ref) :
    precomputeStep amdMediaOps passes lanes segmentBlocks blockId i refs thread (refPlace p x)
      = if blockId.toNat / addrBlocks p = 2 * x.lane + x.slice
            ∧ blockId.toNat % addrBlocks p * 128 + (i * 32 + thread.val) = x.offset
          then refOf p x (addressWord p x) else refs (refPlace p x) := by
  have hlanes : 0 < lanes.toNat := by
    rw [← h.lanes_eq]
    exact Nat.zero_lt_of_lt hx.lane_lt
  obtain ⟨hsegment, hblock, hfirst, hoffset⟩ :=
    warp_numbers h hlanes hid (show i * 32 + thread.val < 128 by omega)
  rw [precomputeStep]
  dsimp only
  -- the warp numbers the segment and the address block, the turn and the thread its word
  by_cases hmine : blockId.toNat / addrBlocks p = 2 * x.lane + x.slice
      ∧ blockId.toNat % addrBlocks p * 128 + (i * 32 + thread.val) = x.offset
  · obtain ⟨hseg, hoff⟩ := hmine
    have hoff' := hoffset.trans hoff
    have hlt : blockId % ((segmentBlocks + 128 - 1) / 128) * 128
        + BitVec.ofNat 32 (i * 32 + thread.val) < segmentBlocks := by
      rw [BitVec.lt_def, hoff', ← h.segLen_eq]
      exact hx.valid.offset_lt
    have hentry := entry_right amdMediaOps h hx hi thread (hsegment.trans hseg) hoff'
      (by rw [hblock]; exact hoff)
    rw [if_pos hlt, hentry, hfirst, hseg, hoff', if_pos ⟨rfl, hoff⟩]
    exact Function.update_self _ _ _
  · rw [if_neg hmine]
    split
    case isTrue hlt =>
      -- another place: no two positions share one
      refine Function.update_of_ne (fun hplace => hmine ?_) _ _
      rw [hfirst, hoffset] at hplace
      rw [BitVec.lt_def, hoffset, ← h.segLen_eq] at hlt
      exact place_unique hx hlt hplace.symm
    case isFalse => rfl

/-- A warp keeps a right entry. -/
theorem argon2PrecomputeKernel_keep (amdMediaOps : Bool)
    (h : TableArgs passes lanes segmentBlocks p) {x : Argon2.Pos} (hx : InTable p x) {blockId : U32}
    (hid : blockId.toNat < 2 * p.lanes * addrBlocks p) {refs : Buffer Ref}
    (hrefs : refs (refPlace p x) = refOf p x (addressWord p x)) :
    argon2PrecomputeKernel amdMediaOps passes lanes segmentBlocks refs blockId (refPlace p x)
      = refOf p x (addressWord p x) := by
  rw [argon2PrecomputeKernel_eq]
  refine Loops.foldl_keep (P := fun refs : Buffer Ref => refs (refPlace p x) = _)
    (fun refs i hi hrefs => ?_) hrefs
  refine Loops.foldl_keep (P := fun refs : Buffer Ref => refs (refPlace p x) = _)
    (fun refs thread _ hrefs => ?_) hrefs
  rw [precomputeStep_place amdMediaOps h hx hid (List.mem_range.mp hi), hrefs, ite_self]

/-- The warp of its address block writes an entry. -/
theorem argon2PrecomputeKernel_set (amdMediaOps : Bool)
    (h : TableArgs passes lanes segmentBlocks p) {x : Argon2.Pos} (hx : InTable p x) {blockId : U32}
    (hid : blockId.toNat = refWarp p x)
    (refs : Buffer Ref) :
    argon2PrecomputeKernel amdMediaOps passes lanes segmentBlocks refs blockId (refPlace p x)
      = refOf p x (addressWord p x) := by
  have hblock := hx.block_lt
  have hid' : blockId.toNat < 2 * p.lanes * addrBlocks p := hid ▸ hx.refWarp_lt
  have hmine : ∀ {i : ℕ} {thread : Fin 32}, i * 32 + thread.val = x.offset % 128 →
      blockId.toNat / addrBlocks p = 2 * x.lane + x.slice
        ∧ blockId.toNat % addrBlocks p * 128 + (i * 32 + thread.val) = x.offset := by
    intro i thread hpos
    rw [hid, refWarp, Nat.mul_add_mod_of_lt hblock, Nat.mul_comm (2 * x.lane + x.slice),
      Nat.mul_add_div (by omega), Nat.div_eq_of_lt hblock, hpos]
    exact ⟨rfl, by omega⟩
  rw [argon2PrecomputeKernel_eq]
  -- register `offset % 128 / 32` of thread `offset % 32` holds the word of the entry
  refine Loops.foldl_reach (P := fun refs : Buffer Ref => refs (refPlace p x) = _)
    (fun refs i hi hrefs => ?_) (List.mem_range.mpr (show x.offset % 128 / 32 < 4 by omega))
    (fun refs => ?_) refs
  · refine Loops.foldl_keep (P := fun refs : Buffer Ref => refs (refPlace p x) = _)
      (fun refs thread _ hrefs => ?_) hrefs
    rw [precomputeStep_place amdMediaOps h hx hid' (List.mem_range.mp hi), hrefs, ite_self]
  · refine Loops.foldl_reach (P := fun refs : Buffer Ref => refs (refPlace p x) = _)
      (fun refs thread _ hrefs => ?_) (List.mem_finRange ⟨x.offset % 32, Nat.mod_lt _ (by omega)⟩)
      (fun refs => ?_) refs
    · rw [precomputeStep_place amdMediaOps h hx hid' (by omega), hrefs, ite_self]
    · rw [precomputeStep_place amdMediaOps h hx hid' (by omega), if_pos (hmine ?_)]
      show x.offset % 128 / 32 * 32 + x.offset % 32 = x.offset % 128
      omega

/-- After all warps, in any order, the table holds the references of the RFC. -/
theorem referenceTable_right (amdMediaOps : Bool) (h : TableArgs passes lanes segmentBlocks p)
    {x : Argon2.Pos} (hx : InTable p x) {warps : List ℕ}
    (hwarps : warps.Perm (List.range (2 * p.lanes * addrBlocks p))) (refs : Buffer Ref) :
    warps.foldl (fun refs blockId => argon2PrecomputeKernel amdMediaOps passes lanes segmentBlocks
        refs (BitVec.ofNat 32 blockId)) refs (refPlace p x)
      = refOf p x (addressWord p x) := by
  have hlt := h.warps_lt
  have hid : ∀ blockId < 2 * p.lanes * addrBlocks p, (BitVec.ofNat 32 blockId).toNat = blockId := by
    intro blockId hblockId
    rw [BitVec.toNat_ofNat, Nat.mod_eq_of_lt (by omega)]
  refine Loops.foldl_reach (P := fun refs : Buffer Ref => refs (refPlace p x) = _)
    (fun refs blockId hmem hrefs => ?_)
    (hwarps.mem_iff.mpr (List.mem_range.mpr hx.refWarp_lt)) (fun refs => ?_) refs
  · have hblockId := List.mem_range.mp (hwarps.mem_iff.mp hmem)
    exact argon2PrecomputeKernel_keep amdMediaOps h hx (by rwa [hid blockId hblockId]) hrefs
  · exact argon2PrecomputeKernel_set amdMediaOps h hx (hid _ hx.refWarp_lt) refs

end

end Kernel
