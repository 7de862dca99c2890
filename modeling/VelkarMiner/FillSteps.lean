/-
Steps of the fill: `argon2_kernel_oneshot_precompute` of `src/argon2_kernel.cl`.

A warp fills the region of its job block by block.  It carries the last block in its
registers, takes the references of the first two slices from the table and those of the
other two from the first word of the last block.

* `fill_eq`, `filled_succ` — with one lane and one pass RFC 9106 computes column after
  column;
* `oneshotTurn`, `launchTurn` — the kernel, turn by turn; the jobs of a batch share the
  memory and the table;
* `argon2Core_spec`, `argon2StepPrecompute_spec` — what a step stores and keeps.
-/
import VelkarMiner.FirstBlocks
import VelkarMiner.ReferenceTable
import VelkarMiner.WarpMemory

open Bytes

namespace Argon2

/-! ### One pass over one lane -/

/-- The position of a column in the first pass over lane 0. -/
def posAt (p : Params) (c : ℕ) : Pos := ⟨0, c / p.segLen, 0, c % p.segLen⟩

/-- The memory after the columns below `n`. -/
def filled (p : Params) (B : Memory) (n : ℕ) : Memory :=
  (((List.range n).filter (2 ≤ ·)).map (posAt p)).foldl (computeBlock p) B

section

variable {p : Params}

theorem col_posAt (c : ℕ) : (posAt p c).col p = c := Nat.div_add_mod' c p.segLen

theorem posAt_row {slice offset : ℕ} (h : offset < p.segLen) :
    posAt p (slice * p.segLen + offset) = ⟨0, slice, 0, offset⟩ := by
  have hdiv : (slice * p.segLen + offset) / p.segLen = slice := by
    rw [Nat.mul_comm, Nat.mul_add_div (Nat.zero_lt_of_lt h), Nat.div_eq_of_lt h, Nat.add_zero]
  rw [posAt, hdiv, Nat.mul_add_mod_of_lt h]

theorem posAt_valid (hseg : 2 ≤ p.segLen) {c : ℕ} (htwo : 2 ≤ c) (hc : c < p.laneLen) :
    (posAt p c).Valid p where
  slice_lt := Nat.div_lt_of_lt_mul (by rwa [Nat.mul_comm])
  offset_lt := Nat.mod_lt _ (by omega)
  offset_ge := by
    intro _ hslice
    have hc' := col_posAt (p := p) c
    rw [Pos.col, hslice, Nat.zero_mul, Nat.zero_add] at hc'
    omega

/-- The positions of the only pass over the only lane are its columns from the third on. -/
theorem positions_eq (hlanes : p.lanes = 1) (hpasses : p.passes = 1) (hseg : 2 ≤ p.segLen) :
    positions p = ((List.range p.laneLen).filter (2 ≤ ·)).map (posAt p) := by
  have hslice : ∀ slice, ((List.range p.segLen).filter fun off =>
        ¬ (0 = 0 ∧ slice = 0 ∧ off < 2)).map (fun off => (⟨0, slice, 0, off⟩ : Pos))
      = (((List.range p.segLen).map (slice * p.segLen + ·)).filter (2 ≤ ·)).map (posAt p) := by
    intro slice
    rw [List.filter_map, List.map_map]
    have hfilter : (List.range p.segLen).filter (fun off => ¬ (0 = 0 ∧ slice = 0 ∧ off < 2))
        = (List.range p.segLen).filter ((fun c => decide (2 ≤ c)) ∘ (slice * p.segLen + ·)) := by
      apply List.filter_congr
      intro off hoff
      rcases Nat.eq_zero_or_pos slice with rfl | hpos
      · simp
        omega
      · have hrow : p.segLen ≤ slice * p.segLen := Nat.le_mul_of_pos_left _ hpos
        simp [Nat.ne_of_gt hpos, show 2 ≤ slice * p.segLen + off by omega]
    rw [hfilter]
    apply List.map_congr_left
    intro off hoff
    exact (posAt_row (List.mem_range.mp (List.mem_of_mem_filter hoff))).symm
  rw [positions, hpasses, hlanes, Params.laneLen, Loops.range_mul, List.filter_flatMap,
    List.map_flatMap, List.range_one, List.flatMap_singleton]
  apply congrArg (fun f => List.flatMap f (List.range 4))
  funext slice
  rw [List.flatMap_singleton]
  exact hslice slice

theorem fill_eq (hlanes : p.lanes = 1) (hpasses : p.passes = 1) (hseg : 2 ≤ p.segLen)
    (B : Memory) : fill p B = filled p B p.laneLen := by
  rw [fill, positions_eq hlanes hpasses hseg, filled]

theorem filled_of_le (B : Memory) {n : ℕ} (h : n ≤ 2) : filled p B n = B := by
  have hempty : (List.range n).filter (2 ≤ ·) = [] := by
    rw [List.filter_eq_nil_iff]
    intro c hc
    have hlt := List.mem_range.mp hc
    simp
    omega
  rw [filled, hempty]
  rfl

theorem filled_succ (B : Memory) {n : ℕ} (h : 2 ≤ n) :
    filled p B (n + 1) = computeBlock p (filled p B n) (posAt p n) := by
  rw [filled, List.range_succ, List.filter_append, List.map_append, List.foldl_append]
  simp [h, filled]

/-- The block of one more column. -/
def nextBlock (p : Params) (B : Memory) (n : ℕ) : Block :=
  let j1 := J1 (pseudoRand p B (posAt p n))
  compressG (B 0 (n - 1)) (B 0 (refColumn p (posAt p n) 0 j1))

theorem prevCol_posAt {n : ℕ} (hpos : 1 ≤ n) (hn : n < p.laneLen) :
    (posAt p n).prevCol p = n - 1 := by
  have hback : n + p.laneLen - 1 = n - 1 + p.laneLen := by omega
  rw [Pos.prevCol, col_posAt, hback, Nat.add_mod_right, Nat.mod_eq_of_lt (by omega)]

theorem refLane_posAt (hlanes : p.lanes = 1) (n : ℕ) (j2 : U32) : refLane p (posAt p n) j2 = 0 := by
  rw [refLane, hlanes, Nat.mod_one]
  exact ite_self 0

theorem computeBlock_posAt (hlanes : p.lanes = 1) (B : Memory) {n : ℕ} (hpos : 1 ≤ n)
    (hn : n < p.laneLen) (c : ℕ) :
    computeBlock p B (posAt p n) 0 c = if c = n then nextBlock p B n else B 0 c := by
  rw [computeBlock]
  simp only [refLane_posAt hlanes, prevCol_posAt hpos hn, col_posAt,
    show (posAt p n).pass = 0 from rfl,
    show (posAt p n).lane = 0 from rfl, if_true, Function.update_self]
  exact Function.update_apply _ _ _ _

end

end Argon2

/-! ### The kernel -/

namespace Kernel

/-- The variables of a warp in `argon2_kernel_oneshot_precompute`; `memCurr` counts blocks and
`refs` entries of the table. -/
structure LaneRegs where
  prev : Warp BlockTh
  memCurr : ℕ
  refs : ℕ
  skip : U32

/-- `argon2_core`, all threads; `ARGON2_VERSION` is 0x13. -/
def argon2Core (amdMediaOps : Bool) (memory : Buffer U64) (base memCurr : ℕ) (prev : Warp BlockTh)
    (lanes pass : U32) (refIndex refLane : Warp U32) : Buffer U64 × Warp BlockTh :=
  let memRef : Warp ℕ := fun thread =>
    base + (refIndex thread * lanes).toNat + (refLane thread).toNat
  let (prev, tmp) :=
    if pass ≠ 0 then
      let tmp := loadBlock memory memCurr
      let prev : Warp BlockTh := fun thread => loadBlockXor prev memory (memRef thread) thread
      (prev, xorBlock tmp prev)
    else
      let prev : Warp BlockTh := fun thread => loadBlockXor prev memory (memRef thread) thread
      (prev, prev)
  let prev := shuffleBlock amdMediaOps prev
  let prev := xorBlock prev tmp
  (storeBlock (List.finRange 32) memory memCurr prev, prev)

/-- `argon2_step_precompute`, all threads; the type is Argon2id. -/
def argon2StepPrecompute (amdMediaOps : Bool) (table : Buffer Ref) (memory : Buffer U64)
    (base memCurr : ℕ) (prev : Warp BlockTh) (refs : ℕ)
    (lanes segmentBlocks lane pass slice offset : U32) : Buffer U64 × Warp BlockTh × ℕ :=
  if pass = 0 ∧ slice < 2 then
    let ref := table refs
    let (memory, prev) := argon2Core amdMediaOps memory base memCurr prev lanes pass
      (fun _ => ref.refIndex) (fun _ => ref.refLane)
    (memory, prev, refs + 1)
  else
    let v := u64Shuffle (fun thread => (prev thread).a) fun _ => 0
    let pos : Warp (U32 × U32) := fun thread =>
      computeRefPos lanes segmentBlocks pass lane slice offset (u64Hi (v thread)) (u64Lo (v thread))
    let (memory, prev) := argon2Core amdMediaOps memory base memCurr prev lanes pass
      (fun thread => (pos thread).2) (fun thread => (pos thread).1)
    (memory, prev, refs)

/-- The turns of `argon2_kernel_oneshot_precompute`: what precedes the loops, the body of the
innermost loop, and the end of a pass. -/
inductive Turn
  | start
  | body (pass slice offset : U32)
  | passEnd

/-- The turns in the order of the loops. -/
def oneshotTurns (passes segmentBlocks : U32) : List Turn :=
  Turn.start :: (List.range passes.toNat).flatMap fun pass =>
    ((List.range 4).flatMap fun slice => (List.range segmentBlocks.toNat).map fun offset =>
      Turn.body (BitVec.ofNat 32 pass) (BitVec.ofNat 32 slice) (BitVec.ofNat 32 offset))
      ++ [Turn.passEnd]

/-- One turn of a warp. -/
def oneshotTurn (amdMediaOps : Bool) (table : Buffer Ref) (lanes segmentBlocks jobId lane : U32)
    (memory : Buffer U64) (regs : LaneRegs) : Turn → Buffer U64 × LaneRegs :=
  let laneBlocks := 4 * segmentBlocks
  let base := jobId.toNat * lanes.toNat * laneBlocks.toNat
  let memLane := base + lane.toNat
  fun
  | .start =>
    (memory,
      { prev := loadBlock memory (memLane + (1 * lanes).toNat)
        memCurr := memLane + (2 * lanes).toNat
        refs := (lane * (laneBlocks / 2) + 2).toNat
        skip := 2 })
  | .body pass slice offset =>
    if regs.skip > 0 then (memory, { regs with skip := regs.skip - 1 })
    else
      let (memory, prev, refs) := argon2StepPrecompute amdMediaOps table memory base regs.memCurr
        regs.prev regs.refs lanes segmentBlocks lane pass slice offset
      (memory, { regs with prev, refs, memCurr := regs.memCurr + lanes.toNat })
  | .passEnd => (memory, { regs with memCurr := memLane })

/-- A launch: the memory that the jobs share and the variables of each of them. -/
structure LaunchState where
  memory : Buffer U64
  regs : ℕ → LaneRegs

/-- A turn of one of the jobs; `job_id` is a `uint`, and a job has a single lane. -/
def launchTurn (amdMediaOps : Bool) (table : Buffer Ref) (lanes segmentBlocks : U32)
    (s : LaunchState) (e : ℕ × Turn) : LaunchState :=
  let r := oneshotTurn amdMediaOps table lanes segmentBlocks (BitVec.ofNat 32 e.1) 0 s.memory
    (s.regs e.1) e.2
  ⟨r.1, Function.update s.regs e.1 r.2⟩

/-- The programs of a launch with `batchSize` jobs. -/
def launchProgram (passes segmentBlocks : U32) (batchSize job : ℕ) : List Turn :=
  if job < batchSize then oneshotTurns passes segmentBlocks else []

/-! ### One step -/

theorem xorBlock_left (X Y Z : Argon2.Block) :
    Argon2.xorBlock X (Argon2.xorBlock Y Z) = Argon2.xorBlock (Argon2.xorBlock X Z) Y := by
  apply Vector.ext
  intro i hi
  simp only [Argon2.xorBlock, Vector.getElem_zipWith]
  rw [BitVec.xor_comm Y[i], ← BitVec.xor_assoc]

/-- A step stores G of the last block and the reference, added to the old block after the first
pass, and keeps it in the registers. -/
theorem argon2Core_spec (amdMediaOps : Bool) (memory : Buffer U64) (base memCurr : ℕ)
    {prev : Warp BlockTh} {X : Argon2.Block} (hprev : Spread prev X) (lanes pass : U32)
    (refIndex refLane : Warp U32) {r : ℕ}
    (href : ∀ t, base + (refIndex t * lanes).toNat + (refLane t).toNat = r) :
    let out := argon2Core amdMediaOps memory base memCurr prev lanes pass refIndex refLane
    let G := Argon2.compressG X (blockAt memory r)
    Spread out.2 (if pass = 0 then G else Argon2.xorBlock G (blockAt memory memCurr))
      ∧ out.1 = storeBlock (List.finRange 32) memory memCurr out.2 := by
  intro out G
  refine ⟨?_, rfl⟩
  -- all threads read the same block
  have hload : (fun thread => loadBlockXor prev memory
      (base + (refIndex thread * lanes).toNat + (refLane thread).toNat) thread)
      = loadBlockXor prev memory r := by
    funext thread
    rw [href]
  have hR := loadBlockXor_spread hprev memory r
  have hout : out.2 = xorBlock (shuffleBlock amdMediaOps (loadBlockXor prev memory r))
      (if pass = 0 then loadBlockXor prev memory r
        else xorBlock (loadBlock memory memCurr) (loadBlockXor prev memory r)) := by
    show (argon2Core amdMediaOps memory base memCurr prev lanes pass refIndex refLane).2 = _
    rw [argon2Core]
    simp only [hload]
    -- from the second pass on, the old block is added
    by_cases hpass : pass = 0
    · rw [if_neg (not_not.mpr hpass), if_pos hpass]
    · rw [if_pos hpass, if_neg hpass]
  rw [hout]
  by_cases hpass : pass = 0
  · rw [if_pos hpass, if_pos hpass]
    exact xorBlock_spread (shuffleBlock_spread amdMediaOps hR) hR
  · rw [if_neg hpass, if_neg hpass]
    have hsum := xorBlock_spread (shuffleBlock_spread amdMediaOps hR)
      (xorBlock_spread (loadBlock_spread memory memCurr) hR)
    rwa [xorBlock_left] at hsum

/-- The value J1 ∥ J2 of a step: from the table's address blocks or from the last block. -/
def stepWord (p : Argon2.Params) (x : Argon2.Pos) (X : Argon2.Block) : U64 :=
  if x.dataIndependent then addressWord p x else X.get ⟨0, Nat.succ_pos 127⟩

theorem dataIndependent_posOf (pass slice lane offset : U32) :
    (posOf pass slice lane offset).dataIndependent = true ↔ pass = 0 ∧ slice < 2 := by
  rw [Argon2.Pos.dataIndependent, decide_eq_true_iff, BitVec.lt_def]
  exact and_congr_left' toNat_eq_zero

/-- A step takes its reference from the table or computes it; both are those of RFC 9106. -/
theorem argon2StepPrecompute_spec (amdMediaOps : Bool) {p : Argon2.Params}
    {lanes segmentBlocks pass lane slice offset : U32}
    (h : RefPosArgs lanes segmentBlocks pass lane slice offset p) {table : Buffer Ref} {refs : ℕ}
    (htable : pass = 0 → slice < 2 → table refs = refOf p (posOf pass slice lane offset)
      (addressWord p (posOf pass slice lane offset)))
    (memory : Buffer U64) (base memCurr : ℕ) {prev : Warp BlockTh} {X : Argon2.Block}
    (hprev : Spread prev X) :
    let out := argon2StepPrecompute amdMediaOps table memory base memCurr prev refs lanes
      segmentBlocks lane pass slice offset
    let x := posOf pass slice lane offset
    let ref := refOf p x (stepWord p x X)
    let G := Argon2.compressG X
      (blockAt memory (base + (ref.refIndex * lanes).toNat + ref.refLane.toNat))
    Spread out.2.1 (if pass = 0 then G else Argon2.xorBlock G (blockAt memory memCurr))
      ∧ out.1 = storeBlock (List.finRange 32) memory memCurr out.2.1
      ∧ out.2.2 = if pass = 0 ∧ slice < 2 then refs + 1 else refs := by
  intro out x ref G
  have hout : out = argon2StepPrecompute amdMediaOps table memory base memCurr prev refs lanes
    segmentBlocks lane pass slice offset := rfl
  rw [argon2StepPrecompute] at hout
  by_cases hind : pass = 0 ∧ slice < 2
  -- the first half of the first pass reads the table
  · have hword : stepWord p x X = addressWord p x :=
      if_pos ((dataIndependent_posOf pass slice lane offset).mpr hind)
    have href : table refs = ref := by
      rw [htable hind.1 hind.2]
      exact congrArg (refOf p x) hword.symm
    obtain ⟨hspread, hstore⟩ := argon2Core_spec amdMediaOps memory base memCurr hprev lanes pass
      (fun _ => ref.refIndex) (fun _ => ref.refLane) fun _ => rfl
    rw [if_pos hind, href] at hout
    rw [hout, if_pos hind]
    exact ⟨hspread, hstore, rfl⟩
  -- later, all threads of the warp get the first word of the last block from thread 0
  · have hword : stepWord p x X = X.get 0 :=
      if_neg ((dataIndependent_posOf pass slice lane offset).not.mpr hind)
    have hshuffle : ∀ t, u64Shuffle (fun thread => (prev thread).a) (fun _ => 0) t = X.get 0 :=
      fun t => (u64Shuffle_eq _ (fun _ => 0) (fun _ => rfl) t).trans (hprev 0 0)
    have hpos := computeRefPos_refOf h (X.get 0)
    rw [← hword] at hpos
    obtain ⟨hspread, hstore⟩ := argon2Core_spec amdMediaOps memory base memCurr hprev lanes pass
      (fun _ => ref.refIndex) (fun _ => ref.refLane) fun _ => rfl
    rw [if_neg hind] at hout
    simp only [hshuffle, ← hword, hpos] at hout
    rw [hout, if_neg hind]
    exact ⟨hspread, hstore, rfl⟩

end Kernel
