/-
Which block a step refers to: `compute_ref_pos` of `src/argon2_kernel.cl` and the
indexing of RFC 9106.

The window of a position is a run of columns, counted around the lane from the
oldest one still kept:

* `window_eq`, `refColumn_eq` — the window and the column it yields in closed form;
* `refColumn_lt` — a column that the run has already reached;
* `computeRefPos_spec` — the kernel's `uint` arithmetic never wraps and finds lane
  and column of the RFC.
-/
import VelkarMiner.WarpShuffle

namespace Argon2

/-! ### The window in closed form -/

/-- The number of columns kept in the finished segments. -/
def windowBase (p : Params) (x : Pos) : ℕ :=
  if x.pass = 0 then x.slice * p.segLen else 3 * p.segLen

/-- The size of the window in lane `l`. -/
def windowSize (p : Params) (x : Pos) (l : ℕ) : ℕ :=
  if l = x.lane then windowBase p x + x.offset - 1
  else if x.offset = 0 then windowBase p x - 1
  else windowBase p x

/-- The oldest column that is kept. -/
def windowStart (p : Params) (x : Pos) : ℕ :=
  if x.pass = 0 then 0 else (x.slice + 1) * p.segLen

/-- A position inside the memory, behind the two columns that are given. -/
structure Pos.Valid (p : Params) (x : Pos) : Prop where
  slice_lt : x.slice < 4
  offset_lt : x.offset < p.segLen
  offset_ge : x.pass = 0 → x.slice = 0 → 2 ≤ x.offset

section

variable {p : Params} {x : Pos}

theorem Pos.Valid.slice_mul_le (h : x.Valid p) : x.slice * p.segLen ≤ 3 * p.segLen :=
  Nat.mul_le_mul_right _ (Nat.le_of_lt_succ h.slice_lt)

theorem finished_eq (h : x.Valid p) : finished p x
    = (List.range (windowBase p x)).map fun k => (windowStart p x + k) % p.laneLen := by
  rw [finished, windowBase, windowStart]
  split
  · have hmod : ∀ k ∈ List.range (x.slice * p.segLen), (0 + k) % p.laneLen = k := by
      intro k hk
      have hlt := List.mem_range.mp hk
      have hle := h.slice_mul_le
      rw [Nat.zero_add, Nat.mod_eq_of_lt]
      show k < 4 * p.segLen
      omega
    rw [List.map_congr_left hmod, List.map_id']
  · rfl

/-- The columns of the current segment follow those of the finished ones. -/
theorem column_eq (h : x.Valid p) {j : ℕ} (hj : j < p.segLen) :
    x.slice * p.segLen + j = (windowStart p x + (windowBase p x + j)) % p.laneLen := by
  have hle := h.slice_mul_le
  have hin : x.slice * p.segLen + j < p.laneLen := by
    show _ < 4 * p.segLen
    omega
  rw [windowStart, windowBase]
  split
  · rw [Nat.zero_add, Nat.mod_eq_of_lt hin]
  · have hround : (x.slice + 1) * p.segLen + (3 * p.segLen + j)
        = x.slice * p.segLen + j + p.laneLen := by
      show _ = _ + 4 * p.segLen
      rw [Nat.add_mul]
      omega
    rw [hround, Nat.add_mod_right, Nat.mod_eq_of_lt hin]

theorem current_eq (h : x.Valid p) : (List.range x.offset).map (x.slice * p.segLen + ·)
    = (List.range x.offset).map fun j =>
        (windowStart p x + (windowBase p x + j)) % p.laneLen := by
  apply List.map_congr_left
  intro j hj
  exact column_eq h ((List.mem_range.mp hj).trans h.offset_lt)

theorem window_eq (h : x.Valid p) (l : ℕ) : window p x l
    = (List.range (windowSize p x l)).map fun k => (windowStart p x + k) % p.laneLen := by
  have hdrop : ∀ n, ((List.range n).map fun k => (windowStart p x + k) % p.laneLen).dropLast
      = (List.range (n - 1)).map fun k => (windowStart p x + k) % p.laneLen := by
    intro n
    rw [List.dropLast_eq_take, List.length_map, List.length_range, ← List.map_take, List.take_range,
      Nat.min_eq_left (Nat.sub_le n 1)]
  rw [window, windowSize]
  split
  · have hjoin : finished p x ++ (List.range x.offset).map (x.slice * p.segLen + ·)
        = (List.range (windowBase p x + x.offset)).map fun k =>
            (windowStart p x + k) % p.laneLen := by
      rw [finished_eq h, current_eq h, List.range_add, List.map_append, List.map_map]
      rfl
    rw [hjoin, hdrop]
  · split
    · rw [finished_eq h, hdrop]
    · exact finished_eq h

/-- The distance from the newest column of a window of `n` that `j1` selects. -/
def refDistance (n : ℕ) (j1 : U32) : ℕ := n * (j1.toNat * j1.toNat / 2 ^ 32) / 2 ^ 32

theorem refDistance_lt {n : ℕ} (hn : 0 < n) (j1 : U32) : refDistance n j1 < n := by
  have hj : j1.toNat < 2 ^ 32 := j1.isLt
  have hx : j1.toNat * j1.toNat / 2 ^ 32 < 2 ^ 32 := by
    rw [Nat.div_lt_iff_lt_mul (by omega)]
    exact Nat.mul_lt_mul'' hj hj
  rw [refDistance, Nat.div_lt_iff_lt_mul (by omega)]
  exact Nat.mul_lt_mul_of_pos_left hx hn

theorem refColumn_eq (h : x.Valid p) {l : ℕ} (hn : 0 < windowSize p x l) (j1 : U32) :
    refColumn p x l j1 = (windowStart p x
      + (windowSize p x l - 1 - refDistance (windowSize p x l) j1)) % p.laneLen := by
  have hlen : (window p x l).length = windowSize p x l := by
    rw [window_eq h, List.length_map, List.length_range]
  have hlt : windowSize p x l - 1 - refDistance (windowSize p x l) j1 < windowSize p x l := by
    omega
  rw [refColumn]
  simp only [hlen]
  rw [← refDistance, window_eq h, List.getD_eq_getElem?_getD, List.getElem?_map,
    List.getElem?_range hlt]
  rfl

/-- In the first pass the own lane yields a column in front of the preceding one. -/
theorem refColumn_lt (h : x.Valid p) (hpass : x.pass = 0) (hcol : 2 ≤ x.col p) (j1 : U32) :
    refColumn p x x.lane j1 + 1 < x.col p := by
  have hsize : windowSize p x x.lane = x.col p - 1 := by
    rw [windowSize, if_pos rfl, windowBase, if_pos hpass]
    rfl
  have hle : (windowStart p x + (windowSize p x x.lane - 1
      - refDistance (windowSize p x x.lane) j1)) % p.laneLen
      ≤ windowSize p x x.lane - 1 := by
    refine (Nat.mod_le _ _).trans ?_
    rw [windowStart, if_pos hpass]
    omega
  rw [refColumn_eq h (by omega)]
  omega

/-- Places less than a lane apart are different columns. -/
theorem mod_ne {L start a b : ℕ} (ha : a < L) (hb : b < L) (hab : a ≠ b) :
    (start + a) % L ≠ (start + b) % L := by
  intro heq
  have hmod : a ≡ b [MOD L] := Nat.ModEq.add_left_cancel' start heq
  exact hab (Nat.ModEq.eq_of_lt_of_lt hmod ha hb)

/-- The own lane yields neither the column itself nor the preceding one. -/
theorem refColumn_ne (h : x.Valid p) (htwo : 2 ≤ windowBase p x + x.offset) (j1 : U32) :
    refColumn p x x.lane j1 ≠ x.col p ∧ refColumn p x x.lane j1 ≠ x.prevCol p := by
  have hbase : windowBase p x ≤ 3 * p.segLen := by
    rw [windowBase]
    split
    · exact h.slice_mul_le
    · exact Nat.le_refl _
  have hoff := h.offset_lt
  have hlane : p.laneLen = 4 * p.segLen := rfl
  have hsize : windowSize p x x.lane = windowBase p x + x.offset - 1 := if_pos rfl
  have hdistance := refDistance_lt (n := windowSize p x x.lane) (by omega) j1
  -- counted from the oldest column, the block itself is place `n + 1` and its predecessor `n`
  have hcol : x.col p = (windowStart p x + (windowBase p x + x.offset)) % p.laneLen :=
    column_eq h hoff
  have hprev : x.prevCol p = (windowStart p x + (windowBase p x + x.offset - 1)) % p.laneLen := by
    have hsum : x.col p + p.laneLen - 1 + 1
        ≡ windowStart p x + (windowBase p x + x.offset - 1) + 1 [MOD p.laneLen] := by
      have hone : windowStart p x + (windowBase p x + x.offset - 1) + 1
          = windowStart p x + (windowBase p x + x.offset) := by omega
      have hback : x.col p + p.laneLen - 1 + 1 = x.col p + p.laneLen := by omega
      rw [hone, hback, hcol, Nat.ModEq, Nat.add_mod_right, Nat.mod_mod]
    exact Nat.ModEq.add_right_cancel' 1 hsum
  rw [refColumn_eq h (by omega), hcol, hprev]
  exact ⟨mod_ne (by omega) (by omega) (by omega), mod_ne (by omega) (by omega) (by omega)⟩

end

end Argon2

/-! ### The kernel -/

namespace Kernel

/-- `min` of two `uint`s. -/
def minUint (x y : U32) : U32 := if y < x then y else x

/-- The reference lane and the reference index, in place of `*ref_lane` and `*ref_index`. -/
def computeRefPos (lanes segmentBlocks pass lane slice offset refLane refIndex : U32) :
    U32 × U32 :=
  let laneBlocks := 4 * segmentBlocks
  let refLane := refLane % lanes
  let (refLane, base) :=
    if pass ≠ 0 then (refLane, laneBlocks - segmentBlocks)
    else (if slice = 0 then lane else refLane, slice * segmentBlocks)
  let refAreaSize := base + offset - 1
  let refAreaSize := if refLane ≠ lane then minUint refAreaSize base else refAreaSize
  let refIndex := mulHi refIndex refIndex
  let refIndex := refAreaSize - 1 - mulHi refAreaSize refIndex
  let refIndex :=
    if pass ≠ 0 ∧ slice ≠ 3 then
      let refIndex := refIndex + (slice + 1) * segmentBlocks
      if refIndex ≥ laneBlocks then refIndex - laneBlocks else refIndex
    else refIndex
  (refLane, refIndex)

/-- The position of a step, in the numbers of the RFC. -/
def posOf (pass slice lane offset : U32) : Argon2.Pos :=
  ⟨pass.toNat, slice.toNat, lane.toNat, offset.toNat⟩

/-- The arguments `compute_ref_pos` is called with; no lane has more than 2^31 blocks. -/
structure RefPosArgs (lanes segmentBlocks pass lane slice offset : U32) (p : Argon2.Params) :
    Prop where
  lanes_eq : p.lanes = lanes.toNat
  segLen_eq : p.segLen = segmentBlocks.toNat
  two_le : 2 ≤ segmentBlocks.toNat
  bounded : 8 * segmentBlocks.toNat ≤ 2 ^ 32
  lane_lt : lane.toNat < lanes.toNat
  valid : (posOf pass slice lane offset).Valid p

section

variable {lanes segmentBlocks pass lane slice offset : U32} {p : Argon2.Params}

theorem toNat_eq_zero {x : U32} : x.toNat = 0 ↔ x = 0 :=
  ⟨fun h => BitVec.eq_of_toNat_eq h, fun h => h ▸ rfl⟩

/-- The reference lane that `compute_ref_pos` sets. -/
def refLaneOf (lanes pass lane slice refLane : U32) : U32 :=
  if pass ≠ 0 then refLane % lanes else if slice = 0 then lane else refLane % lanes

/-- Its number of blocks in finished segments. -/
def baseOf (segmentBlocks pass slice : U32) : U32 :=
  if pass ≠ 0 then 4 * segmentBlocks - segmentBlocks else slice * segmentBlocks

/-- Its window in lane `refLane`. -/
def areaOf (base lane offset refLane : U32) : U32 :=
  if refLane ≠ lane then minUint (base + offset - 1) base else base + offset - 1

/-- The last step: places are counted from the oldest segment that is kept. -/
def rotateIndex (segmentBlocks pass slice refIndex : U32) : U32 :=
  if pass ≠ 0 ∧ slice ≠ 3 then
    if refIndex + (slice + 1) * segmentBlocks ≥ 4 * segmentBlocks then
      refIndex + (slice + 1) * segmentBlocks - 4 * segmentBlocks
    else refIndex + (slice + 1) * segmentBlocks
  else refIndex

theorem computeRefPos_eq (refLane refIndex : U32) :
    computeRefPos lanes segmentBlocks pass lane slice offset refLane refIndex
      = (refLaneOf lanes pass lane slice refLane,
        rotateIndex segmentBlocks pass slice
          (areaOf (baseOf segmentBlocks pass slice) lane offset
              (refLaneOf lanes pass lane slice refLane) - 1
            - mulHi (areaOf (baseOf segmentBlocks pass slice) lane offset
              (refLaneOf lanes pass lane slice refLane)) (mulHi refIndex refIndex))) := by
  by_cases hpass : pass ≠ 0
  · simp only [computeRefPos, refLaneOf, baseOf, if_pos hpass]
    rfl
  · simp only [computeRefPos, refLaneOf, baseOf, if_neg hpass]
    rfl

theorem refLaneOf_spec (h : RefPosArgs lanes segmentBlocks pass lane slice offset p) (j2 : U32) :
    (refLaneOf lanes pass lane slice j2).toNat
      = Argon2.refLane p (posOf pass slice lane offset) j2 := by
  have hmod : (j2 % lanes).toNat = j2.toNat % p.lanes := by
    rw [BitVec.toNat_umod, h.lanes_eq]
  rw [Argon2.refLane, refLaneOf]
  simp only [posOf, toNat_eq_zero]
  by_cases hpass : pass = 0
  · rw [if_neg (not_not.mpr hpass)]
    by_cases hslice : slice = 0
    · rw [if_pos hslice, if_pos ⟨hpass, hslice⟩]
    · rw [if_neg hslice, if_neg fun hand => hslice hand.2, hmod]
  · rw [if_pos hpass, if_neg fun hand => hpass hand.1, hmod]

theorem baseOf_spec (h : RefPosArgs lanes segmentBlocks pass lane slice offset p) :
    (baseOf segmentBlocks pass slice).toNat
      = Argon2.windowBase p (posOf pass slice lane offset) := by
  have hb := h.bounded
  have h4 : (4 * segmentBlocks).toNat = 4 * segmentBlocks.toNat :=
    BitVec.toNat_mul_of_lt (show 4 * segmentBlocks.toNat < 2 ^ 32 by omega)
  have hle : slice.toNat * segmentBlocks.toNat ≤ 3 * segmentBlocks.toNat := by
    rw [← h.segLen_eq]
    exact h.valid.slice_mul_le
  rw [Argon2.windowBase, baseOf]
  simp only [posOf, toNat_eq_zero, h.segLen_eq]
  by_cases hpass : pass = 0
  · rw [if_neg (not_not.mpr hpass), if_pos hpass, BitVec.toNat_mul_of_lt (by omega)]
  · rw [if_pos hpass, if_neg hpass, BitVec.toNat_sub_of_le (by rw [BitVec.le_def]; omega), h4]
    omega

/-- The finished segments and the current one fit into a lane, and at least two blocks
precede the position. -/
theorem windowBase_bounds (h : RefPosArgs lanes segmentBlocks pass lane slice offset p) :
    Argon2.windowBase p (posOf pass slice lane offset) ≤ 3 * segmentBlocks.toNat
      ∧ (Argon2.windowBase p (posOf pass slice lane offset) = 0 → pass = 0 ∧ slice = 0)
      ∧ 2 ≤ Argon2.windowBase p (posOf pass slice lane offset) + offset.toNat := by
  have htwo := h.two_le
  have hle : slice.toNat * segmentBlocks.toNat ≤ 3 * segmentBlocks.toNat := by
    rw [← h.segLen_eq]
    exact h.valid.slice_mul_le
  have hge := h.valid.offset_ge
  rw [Argon2.windowBase]
  simp only [posOf, toNat_eq_zero, h.segLen_eq] at hge ⊢
  by_cases hpass : pass = 0
  · rw [if_pos hpass]
    by_cases hslice : slice = 0
    · have hzero : slice.toNat = 0 := toNat_eq_zero.mpr hslice
      have hoff := hge hpass hslice
      rw [hzero, Nat.zero_mul]
      exact ⟨Nat.zero_le _, fun _ => ⟨hpass, hslice⟩, by omega⟩
    · have hpos : 0 < slice.toNat := Nat.pos_of_ne_zero fun hz => hslice (toNat_eq_zero.mp hz)
      have hmul : segmentBlocks.toNat ≤ slice.toNat * segmentBlocks.toNat :=
        Nat.le_mul_of_pos_left _ hpos
      exact ⟨hle, fun hz => by omega, by omega⟩
  · rw [if_neg hpass]
    exact ⟨Nat.le_refl _, fun hz => by omega, by omega⟩

/-- The window is never empty, and its size does not wrap. -/
theorem areaOf_spec (h : RefPosArgs lanes segmentBlocks pass lane slice offset p) (j2 : U32) :
    (areaOf (baseOf segmentBlocks pass slice) lane offset
        (refLaneOf lanes pass lane slice j2)).toNat
      = Argon2.windowSize p (posOf pass slice lane offset)
          (Argon2.refLane p (posOf pass slice lane offset) j2)
    ∧ 0 < Argon2.windowSize p (posOf pass slice lane offset)
          (Argon2.refLane p (posOf pass slice lane offset) j2)
    ∧ Argon2.windowSize p (posOf pass slice lane offset)
          (Argon2.refLane p (posOf pass slice lane offset) j2) < 4 * segmentBlocks.toNat := by
  have hb := h.bounded
  have hoff : offset.toNat < segmentBlocks.toNat := h.segLen_eq ▸ h.valid.offset_lt
  obtain ⟨hle, hzero, htwo⟩ := windowBase_bounds h
  have hbase := baseOf_spec h
  have hlane := refLaneOf_spec h j2
  set base := Argon2.windowBase p (posOf pass slice lane offset) with hbasedef
  have hsum : (baseOf segmentBlocks pass slice + offset).toNat = base + offset.toNat := by
    rw [BitVec.toNat_add_of_lt (by omega), hbase]
  have harea : (baseOf segmentBlocks pass slice + offset - 1).toNat = base + offset.toNat - 1 := by
    rw [BitVec.toNat_sub_of_le (by rw [BitVec.le_def, hsum]; show 1 ≤ _; omega), hsum]
    rfl
  have hoffset : (posOf pass slice lane offset).offset = offset.toNat := rfl
  have hown : (posOf pass slice lane offset).lane = lane.toNat := rfl
  rw [Argon2.windowSize, ← hlane, hown, hoffset, ← hbasedef, areaOf]
  by_cases hl : refLaneOf lanes pass lane slice j2 = lane
  · rw [if_neg (not_not.mpr hl), if_pos (congrArg BitVec.toNat hl), harea]
    exact ⟨rfl, by omega, by omega⟩
  · -- another lane: not in the first slice of the first pass, so whole segments are kept
    have hpos : base ≠ 0 := by
      intro hz
      obtain ⟨hpass, hslice⟩ := hzero hz
      exact hl (by rw [refLaneOf, if_neg (not_not.mpr hpass), if_pos hslice])
    rw [if_pos hl, if_neg fun e => hl (BitVec.eq_of_toNat_eq e), minUint]
    have hmin : baseOf segmentBlocks pass slice < baseOf segmentBlocks pass slice + offset - 1
        ↔ base < base + offset.toNat - 1 := by
      rw [BitVec.lt_def, harea, hbase]
    by_cases hstart : offset.toNat = 0
    · rw [if_pos hstart, if_neg (hmin.not.mpr (by omega)), harea]
      exact ⟨by omega, by omega, by omega⟩
    · rw [if_neg hstart]
      split
      case isTrue => exact ⟨hbase, by omega, by omega⟩
      case isFalse hnot =>
        have hge := hmin.not.mp hnot
        rw [harea]
        exact ⟨by omega, by omega, by omega⟩

/-- Counting on from the oldest segment goes around the lane at most once. -/
theorem rotateIndex_spec (h : RefPosArgs lanes segmentBlocks pass lane slice offset p)
    {refIndex : U32} (hlt : refIndex.toNat < 4 * segmentBlocks.toNat) :
    (rotateIndex segmentBlocks pass slice refIndex).toNat
      = (Argon2.windowStart p (posOf pass slice lane offset) + refIndex.toNat) % p.laneLen := by
  have hb := h.bounded
  have hslice : slice.toNat < 4 := h.valid.slice_lt
  have hlaneLen : p.laneLen = 4 * segmentBlocks.toNat := by
    rw [← h.segLen_eq]
    rfl
  have h4 : (4 * segmentBlocks).toNat = 4 * segmentBlocks.toNat :=
    BitVec.toNat_mul_of_lt (show 4 * segmentBlocks.toNat < 2 ^ 32 by omega)
  have hthree : slice = 3 ↔ slice.toNat = 3 :=
    ⟨fun e => e ▸ rfl, fun e => BitVec.eq_of_toNat_eq e⟩
  rw [rotateIndex, Argon2.windowStart, hlaneLen]
  simp only [posOf, toNat_eq_zero, h.segLen_eq]
  by_cases hpass : pass = 0
  · rw [if_neg fun hand => hand.1 hpass, if_pos hpass, Nat.zero_add, Nat.mod_eq_of_lt hlt]
  · rw [if_neg hpass]
    by_cases hlast : slice = 3
    · -- the oldest segment is the first one of the lane
      have hround : (slice.toNat + 1) * segmentBlocks.toNat = 4 * segmentBlocks.toNat := by
        rw [hthree.mp hlast]
      rw [if_neg fun hand => hand.2 hlast, hround, Nat.add_mod_left, Nat.mod_eq_of_lt hlt]
    · have hle : (slice.toNat + 1) * segmentBlocks.toNat ≤ 3 * segmentBlocks.toNat := by
        have hne := hthree.not.mp hlast
        exact Nat.mul_le_mul_right _ (by omega)
      have hone : (slice + 1).toNat = slice.toNat + 1 :=
        BitVec.toNat_add_of_lt (show slice.toNat + 1 < 2 ^ 32 by omega)
      have hstart :
          ((slice + 1) * segmentBlocks).toNat = (slice.toNat + 1) * segmentBlocks.toNat := by
        rw [BitVec.toNat_mul_of_lt (by rw [hone]; omega), hone]
      have hsum : (refIndex + (slice + 1) * segmentBlocks).toNat
          = refIndex.toNat + (slice.toNat + 1) * segmentBlocks.toNat := by
        rw [BitVec.toNat_add_of_lt (by rw [hstart]; omega), hstart]
      rw [if_pos ⟨hpass, hlast⟩]
      split
      case isTrue hge =>
        have hge' : 4 * segmentBlocks.toNat
            ≤ refIndex.toNat + (slice.toNat + 1) * segmentBlocks.toNat := by
          rw [← h4, ← hsum]
          exact hge
        rw [BitVec.toNat_sub_of_le hge, hsum, h4, Nat.add_comm refIndex.toNat,
          Nat.mod_eq_sub_mod (by omega), Nat.mod_eq_of_lt (by omega)]
      case isFalse hlt' =>
        have hlt'' : refIndex.toNat + (slice.toNat + 1) * segmentBlocks.toNat
            < 4 * segmentBlocks.toNat := by
          rw [← h4, ← hsum]
          exact BitVec.not_le.mp hlt'
        rw [hsum, Nat.add_comm refIndex.toNat, Nat.mod_eq_of_lt (by omega)]

/-- The place in the window, before it is counted around the lane; nothing wraps. -/
theorem index_spec (h : RefPosArgs lanes segmentBlocks pass lane slice offset p) (j2 j1 : U32) :
    let area := areaOf (baseOf segmentBlocks pass slice) lane offset
      (refLaneOf lanes pass lane slice j2)
    let index := area - 1 - mulHi area (mulHi j1 j1)
    (1 : U32).toNat ≤ area.toNat ∧ (mulHi area (mulHi j1 j1)).toNat ≤ (area - 1).toNat
      ∧ index.toNat = area.toNat - 1 - Argon2.refDistance area.toNat j1
      ∧ index.toNat < 4 * segmentBlocks.toNat := by
  obtain ⟨harea, hpos, hlt⟩ := areaOf_spec h j2
  set area := areaOf (baseOf segmentBlocks pass slice) lane offset
    (refLaneOf lanes pass lane slice j2)
  rw [← harea] at hpos hlt
  have hdistance : (mulHi area (mulHi j1 j1)).toNat = Argon2.refDistance area.toNat j1 := by
    rw [toNat_mulHi, toNat_mulHi]
    rfl
  have hshort := Argon2.refDistance_lt hpos j1
  have hone : (area - 1).toNat = area.toNat - 1 :=
    BitVec.toNat_sub_of_le (BitVec.le_def.mpr hpos)
  have hle : (mulHi area (mulHi j1 j1)).toNat ≤ (area - 1).toNat := by omega
  have hindex : (area - 1 - mulHi area (mulHi j1 j1)).toNat
      = area.toNat - 1 - Argon2.refDistance area.toNat j1 := by
    rw [BitVec.toNat_sub_of_le (BitVec.le_def.mpr hle), hone, hdistance]
  exact ⟨hpos, hle, hindex, hindex ▸ by omega⟩

/-- The kernel finds the lane and the column of the RFC. -/
theorem computeRefPos_spec (h : RefPosArgs lanes segmentBlocks pass lane slice offset p)
    (j2 j1 : U32) :
    (computeRefPos lanes segmentBlocks pass lane slice offset j2 j1).1.toNat
        = Argon2.refLane p (posOf pass slice lane offset) j2
      ∧ (computeRefPos lanes segmentBlocks pass lane slice offset j2 j1).2.toNat
        = Argon2.refColumn p (posOf pass slice lane offset)
            (Argon2.refLane p (posOf pass slice lane offset) j2) j1 := by
  obtain ⟨harea, hpos, -⟩ := areaOf_spec h j2
  obtain ⟨-, -, hindex, hlt⟩ := index_spec h j2 j1
  rw [computeRefPos_eq]
  refine ⟨refLaneOf_spec h j2, ?_⟩
  rw [rotateIndex_spec h hlt, hindex, harea, Argon2.refColumn_eq h.valid hpos]

/-! ### No operation wraps -/

/-- `a + b`, `a - b` and `a * b` in 32 bits; a result that wraps is `none`. -/
def addUint (a b : U32) : Option U32 := if a.toNat + b.toNat < 2 ^ 32 then some (a + b) else none

def subUint (a b : U32) : Option U32 := if b ≤ a then some (a - b) else none

def mulUint (a b : U32) : Option U32 := if a.toNat * b.toNat < 2 ^ 32 then some (a * b) else none

def baseChecked (segmentBlocks pass slice : U32) : Option U32 :=
  if pass ≠ 0 then do
    let laneBlocks ← mulUint 4 segmentBlocks
    subUint laneBlocks segmentBlocks
  else mulUint slice segmentBlocks

def areaChecked (base lane offset refLane : U32) : Option U32 := do
  let sum ← addUint base offset
  let refAreaSize ← subUint sum 1
  pure (if refLane ≠ lane then minUint refAreaSize base else refAreaSize)

def rotateChecked (segmentBlocks pass slice refIndex : U32) : Option U32 :=
  if pass ≠ 0 ∧ slice ≠ 3 then do
    let laneBlocks ← mulUint 4 segmentBlocks
    let next ← addUint slice 1
    let start ← mulUint next segmentBlocks
    let refIndex ← addUint refIndex start
    if refIndex ≥ laneBlocks then subUint refIndex laneBlocks else pure refIndex
  else pure refIndex

/-- `compute_ref_pos` with every addition, subtraction and multiplication checked. -/
def computeRefPosChecked (lanes segmentBlocks pass lane slice offset refLane refIndex : U32) :
    Option (U32 × U32) := do
  let refLane := refLaneOf lanes pass lane slice refLane
  let base ← baseChecked segmentBlocks pass slice
  let refAreaSize ← areaChecked base lane offset refLane
  let last ← subUint refAreaSize 1
  let refIndex ← subUint last (mulHi refAreaSize (mulHi refIndex refIndex))
  let refIndex ← rotateChecked segmentBlocks pass slice refIndex
  pure (refLane, refIndex)

theorem addUint_eq {a b : U32} (h : a.toNat + b.toNat < 2 ^ 32) : addUint a b = some (a + b) :=
  if_pos h

theorem subUint_eq {a b : U32} (h : b.toNat ≤ a.toNat) : subUint a b = some (a - b) :=
  if_pos (BitVec.le_def.mpr h)

theorem mulUint_eq {a b : U32} (h : a.toNat * b.toNat < 2 ^ 32) : mulUint a b = some (a * b) :=
  if_pos h

theorem laneBlocks_toNat (h : RefPosArgs lanes segmentBlocks pass lane slice offset p) :
    4 * segmentBlocks.toNat < 2 ^ 32
      ∧ (4 * segmentBlocks).toNat = 4 * segmentBlocks.toNat := by
  have hb := h.bounded
  have hlt : 4 * segmentBlocks.toNat < 2 ^ 32 := by
    have htwo := h.two_le
    omega
  exact ⟨hlt, BitVec.toNat_mul_of_lt hlt⟩

theorem baseChecked_eq (h : RefPosArgs lanes segmentBlocks pass lane slice offset p) :
    baseChecked segmentBlocks pass slice = some (baseOf segmentBlocks pass slice) := by
  obtain ⟨hlt, h4⟩ := laneBlocks_toNat h
  have hle : slice.toNat * segmentBlocks.toNat ≤ 3 * segmentBlocks.toNat := by
    rw [← h.segLen_eq]
    exact h.valid.slice_mul_le
  rw [baseChecked, baseOf]
  split
  · have hmul : (4 : U32).toNat * segmentBlocks.toNat < 2 ^ 32 := hlt
    rw [mulUint_eq hmul, Option.bind_eq_bind, Option.bind_some, subUint_eq (by omega)]
  · exact mulUint_eq (by omega)

theorem areaChecked_eq (h : RefPosArgs lanes segmentBlocks pass lane slice offset p)
    (refLane : U32) :
    areaChecked (baseOf segmentBlocks pass slice) lane offset refLane
      = some (areaOf (baseOf segmentBlocks pass slice) lane offset refLane) := by
  have hb := h.bounded
  have hoff : offset.toNat < segmentBlocks.toNat := h.segLen_eq ▸ h.valid.offset_lt
  obtain ⟨hle, -, htwo⟩ := windowBase_bounds h
  have hbase := baseOf_spec h
  have hadd : (baseOf segmentBlocks pass slice).toNat + offset.toNat < 2 ^ 32 := by omega
  have hsum : (baseOf segmentBlocks pass slice + offset).toNat
      = (baseOf segmentBlocks pass slice).toNat + offset.toNat := BitVec.toNat_add_of_lt hadd
  have hone : (1 : U32).toNat = 1 := rfl
  rw [areaChecked, addUint_eq hadd, Option.bind_eq_bind, Option.bind_some,
    subUint_eq (by omega), Option.bind_some, areaOf]
  rfl

theorem rotateChecked_eq (h : RefPosArgs lanes segmentBlocks pass lane slice offset p)
    {refIndex : U32} (hlt : refIndex.toNat < 4 * segmentBlocks.toNat) :
    rotateChecked segmentBlocks pass slice refIndex
      = some (rotateIndex segmentBlocks pass slice refIndex) := by
  have hb := h.bounded
  obtain ⟨h4lt, h4⟩ := laneBlocks_toNat h
  have hslice : slice.toNat < 4 := h.valid.slice_lt
  have hone : (1 : U32).toNat = 1 := rfl
  rw [rotateChecked, rotateIndex]
  by_cases hcond : pass ≠ 0 ∧ slice ≠ 3
  · have hne : slice.toNat ≠ 3 := fun e => hcond.2 (BitVec.eq_of_toNat_eq e)
    have hnext : (slice + 1).toNat = slice.toNat + 1 :=
      BitVec.toNat_add_of_lt (show slice.toNat + 1 < 2 ^ 32 by omega)
    have hle : (slice.toNat + 1) * segmentBlocks.toNat ≤ 3 * segmentBlocks.toNat :=
      Nat.mul_le_mul_right _ (by omega)
    have hmul : (slice + 1).toNat * segmentBlocks.toNat < 2 ^ 32 := by
      rw [hnext]
      omega
    have hstart :
        ((slice + 1) * segmentBlocks).toNat = (slice.toNat + 1) * segmentBlocks.toNat := by
      rw [BitVec.toNat_mul_of_lt hmul, hnext]
    have hlane : (4 : U32).toNat * segmentBlocks.toNat < 2 ^ 32 := h4lt
    rw [if_pos hcond, if_pos hcond, mulUint_eq hlane, Option.bind_eq_bind, Option.bind_some,
      addUint_eq (by omega), Option.bind_some, mulUint_eq hmul, Option.bind_some,
      addUint_eq (by omega), Option.bind_some]
    split
    case isTrue hge => exact subUint_eq (BitVec.le_def.mp hge)
    case isFalse => rfl
  · rw [if_neg hcond, if_neg hcond]
    rfl

theorem computeRefPosChecked_eq (h : RefPosArgs lanes segmentBlocks pass lane slice offset p)
    (j2 j1 : U32) :
    computeRefPosChecked lanes segmentBlocks pass lane slice offset j2 j1
      = some (computeRefPos lanes segmentBlocks pass lane slice offset j2 j1) := by
  obtain ⟨hpos, hle, -, hlt⟩ := index_spec h j2 j1
  rw [computeRefPosChecked, baseChecked_eq h, Option.bind_eq_bind, Option.bind_some,
    areaChecked_eq h, Option.bind_some, subUint_eq hpos, Option.bind_some, subUint_eq hle,
    Option.bind_some, rotateChecked_eq h hlt, Option.bind_some, computeRefPos_eq]
  rfl

end

/-- For every position behind the given columns the kernel computes the reference of RFC 9106
without wrapping; in the own lane it is a block that has been written and is not the
preceding one. -/
theorem compute_ref_pos_right (lanes segmentBlocks pass lane slice offset j1 j2 : U32)
    (passes : ℕ) (hsegment : 2 ≤ segmentBlocks.toNat) (hbound : 8 * segmentBlocks.toNat ≤ 2 ^ 32)
    (hlane : lane < lanes) (hslice : slice < 4) (hoffset : offset < segmentBlocks)
    (hfirst : pass = 0 → slice = 0 → 2 ≤ offset.toNat) :
    let p : Argon2.Params := ⟨lanes.toNat, passes, segmentBlocks.toNat⟩
    let x := posOf pass slice lane offset
    let ref := computeRefPos lanes segmentBlocks pass lane slice offset j2 j1
    computeRefPosChecked lanes segmentBlocks pass lane slice offset j2 j1 = some ref
      ∧ ref.1.toNat = Argon2.refLane p x j2
      ∧ ref.2.toNat = Argon2.refColumn p x (Argon2.refLane p x j2) j1
      ∧ ref.2.toNat < 4 * segmentBlocks.toNat
      ∧ (ref.1 = lane → ref.2.toNat ≠ x.col p ∧ ref.2.toNat ≠ x.prevCol p
        ∧ (pass = 0 → ref.2.toNat < x.col p)) := by
  intro p x ref
  have hvalid : x.Valid p := ⟨hslice, hoffset, fun hpass hzero =>
    hfirst (toNat_eq_zero.mp hpass) (toNat_eq_zero.mp hzero)⟩
  have hargs : RefPosArgs lanes segmentBlocks pass lane slice offset p :=
    ⟨rfl, rfl, hsegment, hbound, hlane, hvalid⟩
  obtain ⟨hrefLane, hrefIndex⟩ := computeRefPos_spec hargs j2 j1
  obtain ⟨-, hpos, -⟩ := areaOf_spec hargs j2
  obtain ⟨-, -, htwo⟩ := windowBase_bounds hargs
  refine ⟨computeRefPosChecked_eq hargs j2 j1, hrefLane, hrefIndex, ?_, fun hown => ?_⟩
  · rw [hrefIndex, Argon2.refColumn_eq hvalid hpos]
    exact Nat.mod_lt _ (show 0 < 4 * segmentBlocks.toNat by omega)
  -- in the own lane the window ends before the last block
  · have hsame : Argon2.refLane p x j2 = x.lane := hrefLane.symm.trans (congrArg BitVec.toNat hown)
    rw [hrefIndex, hsame]
    obtain ⟨hself, hprev⟩ := Argon2.refColumn_ne hvalid htwo j1
    refine ⟨hself, hprev, fun hpass => ?_⟩
    have hpass' : x.pass = 0 := toNat_eq_zero.mpr hpass
    have hcol : Argon2.windowBase p x + x.offset = x.col p := by
      rw [Argon2.windowBase, if_pos hpass']
      rfl
    exact Nat.lt_of_succ_lt (Argon2.refColumn_lt hvalid hpass' (hcol ▸ htwo) j1)

/-- Two lanes, second pass: the reference goes around the lane. -/
theorem compute_ref_pos_right_second :
    let ref := computeRefPos 2 8 1 1 2 3 5 7
    computeRefPosChecked 2 8 1 1 2 3 5 7 = some ref
      ∧ ref.1.toNat = Argon2.refLane ⟨2, 3, 8⟩ (posOf 1 2 1 3) 5
      ∧ ref.2.toNat = Argon2.refColumn ⟨2, 3, 8⟩ (posOf 1 2 1 3)
          (Argon2.refLane ⟨2, 3, 8⟩ (posOf 1 2 1 3) 5) 7
      ∧ ref.2.toNat < 32 := by
  obtain ⟨hchecked, hlane, hindex, hlt, -⟩ := compute_ref_pos_right 2 8 1 1 2 3 7 5 3 (by decide)
    (by decide) (by decide) (by decide) (by decide) (by decide)
  exact ⟨hchecked, hlane, hindex, hlt⟩

end Kernel
