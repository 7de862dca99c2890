/-
Work items of the fill (`src/argon2_kernel.cl`).

The threads of a work-group run `argon2_kernel_oneshot_precompute` independently of each
other: each has its own variables, loads and stores single words, and waits for the
others at `barrier` only, twice in every `u64_shuffle` and once behind every slice.

* `oneshotPrecomputeCode` — the kernel as the actions of one work item;
* `u64ShuffleCode_spec` — a value takes its way through the buffer of the warp;
* `leads_argon2Core` — a step of the fill, as the warp computes it in lockstep.
-/
import VelkarMiner.Barriers
import VelkarMiner.MemoryFill

open Bytes Barriers

namespace Kernel

/-! ### The code of a work item -/

/-- A word of the global memory, or one half of a slot of `shuffle_bufs[warp]` in the local memory
of a group. -/
inductive Cell
  | word (a : ℕ)
  | lo (group warp thread : ℕ)
  | hi (group warp thread : ℕ)
deriving DecidableEq

/-- The variables of a work item; `v` is the value that goes through `u64_shuffle`. -/
structure WorkItem where
  prev : BlockTh
  tmp : BlockTh
  v : U64
  lo : U32
  hi : U32
  refIndex : U32
  refLane : U32
  memCurr : ℕ
  refs : ℕ

/-- Code of the 32 work items of a warp; a slot holds a `uint`. -/
abbrev Code := List (Instr (Fin 32) Cell U64 WorkItem)

/-- The buffer of a warp: its group, and its number in it. -/
structure Buf where
  group : ℕ
  warp : ℕ

def computeCode (f : Fin 32 → WorkItem → WorkItem) : Code :=
  [.act fun thread => .compute (f thread)]

variable (amdMediaOps : Bool) (buf : Buf)

def u64ShuffleCode (threadSrc : Warp ℕ) : Code :=
  [.act fun _ => .compute fun r => { r with lo := u64Lo r.v, hi := u64Hi r.v },
    .act fun thread => .store (fun _ => .lo buf.group buf.warp thread.val) fun r =>
      r.lo.setWidth 64,
    .act fun thread => .store (fun _ => .hi buf.group buf.warp thread.val) fun r =>
      r.hi.setWidth 64,
    .barrier .read,
    .act fun thread => .load (fun _ => .lo buf.group buf.warp (threadSrc thread)) fun x r =>
      { r with lo := x.setWidth 32 },
    .act fun thread => .load (fun _ => .hi buf.group buf.warp (threadSrc thread)) fun x r =>
      { r with hi := x.setWidth 32 },
    .barrier .own,
    .act fun _ => .compute fun r => { r with v := u64Build r.hi r.lo }]

/-- The body of the shuffle loops. -/
def shuffleRegCode (idx thr : Warp ℕ) : Code :=
  computeCode (fun thread r => { r with v := blockThGet r.prev (idx thread) })
    ++ u64ShuffleCode buf thr
    ++ computeCode fun thread r => { r with prev := blockThSet r.prev (idx thread) r.v }

def shuffleShift1Code : Code := (List.range 4).flatMap fun i =>
  shuffleRegCode buf (fun _ => i) fun thread => applyShuffleShift1 thread i

def shuffleUnshift1Code : Code := (List.range 4).flatMap fun i =>
  shuffleRegCode buf (fun _ => i) fun thread => applyShuffleUnshift1 thread i

def shuffleShift2Code : Code := (List.range 4).flatMap fun i =>
  shuffleRegCode buf (fun _ => i) fun thread => applyShuffleShift2 thread i

def shuffleUnshift2Code : Code := (List.range 4).flatMap fun i =>
  shuffleRegCode buf (fun _ => i) fun thread => applyShuffleUnshift2 thread i

def transposeCode : Code := (List.range' 1 3).flatMap fun i =>
  shuffleRegCode buf (fun thread => threadGroup thread ^^^ i) fun thread => (i <<< 2) ^^^ thread

def gCode : Code := computeCode fun _ r => { r with prev := g amdMediaOps r.prev }

def shuffleBlockCode : Code :=
  transposeCode buf ++ gCode amdMediaOps ++ shuffleShift1Code buf ++ gCode amdMediaOps
    ++ shuffleUnshift1Code buf ++ transposeCode buf ++ gCode amdMediaOps ++ shuffleShift2Code buf
    ++ gCode amdMediaOps ++ shuffleUnshift2Code buf

/-- Word `data[row * THREADS_PER_LANE + thread]` of a block. -/
def dataCell (block : WorkItem → ℕ) (row : ℕ) (thread : Fin 32) (r : WorkItem) : Cell :=
  .word (128 * block r + (row * 32 + thread.val))

/-- Register `row` of a thread. -/
def BlockTh.setReg (b : BlockTh) (row : Fin 4) (v : U64) : BlockTh :=
  match row with
  | 0 => { b with a := v }
  | 1 => { b with b := v }
  | 2 => { b with c := v }
  | 3 => { b with d := v }

/-- The loads of one block, row by row. -/
def loadCode (src : WorkItem → ℕ) (set : Fin 4 → U64 → WorkItem → WorkItem) : Code :=
  (List.finRange 4).flatMap fun row =>
    [.act fun thread => .load (dataCell src row.val thread) (set row)]

/-- `load_block(&prev, src, thread)`. -/
def loadPrevCode (src : WorkItem → ℕ) : Code :=
  loadCode src fun row x r => { r with prev := r.prev.setReg row x }

/-- `load_block_xor(prev, src, thread)`. -/
def loadXorPrevCode (src : WorkItem → ℕ) : Code :=
  loadCode src fun row x r => { r with prev := r.prev.setReg row (r.prev.reg row ^^^ x) }

/-- `load_block(tmp, src, thread)`. -/
def loadTmpCode (src : WorkItem → ℕ) : Code :=
  loadCode src fun row x r => { r with tmp := r.tmp.setReg row x }

/-- `store_block(mem_curr, prev, thread)`. -/
def storePrevCode : Code :=
  (List.finRange 4).flatMap fun row =>
    [.act fun thread => .store (dataCell WorkItem.memCurr row.val thread) fun r => r.prev.reg row]

/-- `xor_block`. -/
def BlockTh.xor (dst src : BlockTh) : BlockTh :=
  ⟨dst.a ^^^ src.a, dst.b ^^^ src.b, dst.c ^^^ src.c, dst.d ^^^ src.d⟩

/-- `mem_ref`. -/
def WorkItem.memRef (base : ℕ) (lanes : U32) (r : WorkItem) : ℕ :=
  base + (r.refIndex * lanes).toNat + r.refLane.toNat

def argon2CoreCode (base : ℕ) (lanes pass : U32) : Code :=
  (if pass ≠ 0 then
      loadTmpCode WorkItem.memCurr ++ loadXorPrevCode (WorkItem.memRef base lanes)
        ++ computeCode fun _ r => { r with tmp := r.tmp.xor r.prev }
    else
      loadXorPrevCode (WorkItem.memRef base lanes) ++ computeCode fun _ r =>
        { r with tmp := r.prev })
    ++ shuffleBlockCode amdMediaOps buf
    ++ computeCode (fun _ r => { r with prev := r.prev.xor r.tmp })
    ++ storePrevCode

/-- `argon2_step_precompute` and the step of `mem_curr` behind it. -/
def argon2StepCode (table : Buffer Ref) (base : ℕ)
    (lanes segmentBlocks lane pass slice offset : U32) :
    Code :=
  (if pass = 0 ∧ slice < 2 then
      computeCode fun _ r =>
        { r with refIndex := (table r.refs).refIndex, refLane := (table r.refs).refLane,
                 refs := r.refs + 1 }
    else
      computeCode (fun _ r => { r with v := r.prev.a }) ++ u64ShuffleCode buf (fun _ => 0)
        ++ computeCode fun _ r =>
          let pos :=
            computeRefPos lanes segmentBlocks pass lane slice offset (u64Hi r.v) (u64Lo r.v)
          { r with refIndex := pos.2, refLane := pos.1 })
    ++ argon2CoreCode amdMediaOps buf base lanes pass
    ++ computeCode fun _ r => { r with memCurr := r.memCurr + lanes.toNat }

/-- The turns of the loops of `argon2_kernel_oneshot_precompute`. -/
inductive LoopTurn
  | body (pass slice offset : U32)
  | sliceEnd
  | passEnd

def loopTurns (passes segmentBlocks : U32) : List LoopTurn :=
  (List.range passes.toNat).flatMap fun pass =>
    ((List.range 4).flatMap fun slice => ((List.range segmentBlocks.toNat).map fun offset =>
      LoopTurn.body (BitVec.ofNat 32 pass) (BitVec.ofNat 32 slice) (BitVec.ofNat 32 offset))
        ++ [LoopTurn.sliceEnd])
      ++ [LoopTurn.passEnd]

/-- The loops unrolled; `skip` counts down outside the data of the work items. -/
def loopCode (step : U32 → U32 → U32 → Code) (memLane : ℕ) : U32 → List LoopTurn → Code
  | _, [] => []
  | skip, .body pass slice offset :: turns =>
    if skip > 0 then loopCode step memLane (skip - 1) turns
    else step pass slice offset ++ loopCode step memLane skip turns
  | skip, .sliceEnd :: turns => .barrier .own :: loopCode step memLane skip turns
  | skip, .passEnd :: turns =>
    computeCode (fun _ r => { r with memCurr := memLane }) ++ loopCode step memLane skip turns

/-- `argon2_kernel_oneshot_precompute`. -/
def oneshotPrecomputeCode (table : Buffer Ref) (passes lanes segmentBlocks jobId lane : U32) :
    Code :=
  let laneBlocks := 4 * segmentBlocks
  let base := jobId.toNat * lanes.toNat * laneBlocks.toNat
  let memLane := base + lane.toNat
  computeCode (fun _ r => { r with memCurr := memLane + (2 * lanes).toNat })
    ++ loadPrevCode (fun _ => memLane + (1 * lanes).toNat)
    ++ computeCode (fun _ r => { r with refs := (lane * (laneBlocks / 2) + 2).toNat })
    ++ loopCode (argon2StepCode amdMediaOps buf table base lanes segmentBlocks lane) memLane 2
      (loopTurns passes segmentBlocks)

/-! ### A warp -/

section

variable {batch jobsPerBlock : ℕ}

/-- Who owns a cell: the words of a block go round the threads of its job, a slot is that of a
thread. -/
def cellOwner (batch jobsPerBlock : ℕ) : Cell → Option (Fin batch × Fin 32)
  | .word a =>
    if h : a / (128 * 8192) < batch then
      some (⟨a / (128 * 8192), h⟩, ⟨a % 32, Nat.mod_lt _ (by omega)⟩)
    else none
  | .lo group warp thread | .hi group warp thread =>
    if h : (group * jobsPerBlock + warp < batch ∧ warp < jobsPerBlock) ∧ thread < 32 then
      some (⟨group * jobsPerBlock + warp, h.1.1⟩, ⟨thread, h.2⟩)
    else none

/-- The buffer of a job. -/
def bufOf (jobsPerBlock job : ℕ) : Buf := ⟨job / jobsPerBlock, job % jobsPerBlock⟩

theorem owner_word {job : Fin batch} {block row : ℕ} (hblock : block / 8192 = job.val)
    (hrow : row < 4) (thread : Fin 32) :
    cellOwner batch jobsPerBlock (.word (128 * block + (row * 32 + thread.val)))
      = some (job, thread) := by
  have hdiv : (128 * block + (row * 32 + thread.val)) / (128 * 8192) = job.val := by omega
  have hmod : (128 * block + (row * 32 + thread.val)) % 32 = thread.val := by omega
  rw [cellOwner, dif_pos (by rw [hdiv]; exact job.isLt)]
  simp only [hdiv, hmod]

theorem bufOf_eq (hjobs : 0 < jobsPerBlock) (job : Fin batch) :
    (bufOf jobsPerBlock job).group * jobsPerBlock + (bufOf jobsPerBlock job).warp = job.val
      ∧ (bufOf jobsPerBlock job).warp < jobsPerBlock :=
  ⟨Nat.div_add_mod' job.val jobsPerBlock, Nat.mod_lt _ hjobs⟩

theorem owner_lo (hjobs : 0 < jobsPerBlock) (job : Fin batch) (thread : Fin 32) :
    cellOwner batch jobsPerBlock
      (.lo (bufOf jobsPerBlock job).group (bufOf jobsPerBlock job).warp thread.val)
      = some (job, thread) := by
  obtain ⟨hjob, hwarp⟩ := bufOf_eq hjobs job
  rw [cellOwner, dif_pos ⟨⟨by rw [hjob]; exact job.isLt, hwarp⟩, thread.isLt⟩]
  simp only [hjob]

theorem owner_hi (hjobs : 0 < jobsPerBlock) (job : Fin batch) (thread : Fin 32) :
    cellOwner batch jobsPerBlock
      (.hi (bufOf jobsPerBlock job).group (bufOf jobsPerBlock job).warp thread.val)
      = some (job, thread) :=
  owner_lo hjobs job thread

/-- What the lockstep model keeps of a warp: the global memory and the variables that live on. -/
@[ext] structure Seen where
  memory : Buffer U64
  prev : Warp BlockTh
  tmp : Warp BlockTh
  refIndex : Warp U32
  refLane : Warp U32
  memCurr : Warp ℕ
  refs : Warp ℕ

def seen (S : View (Fin 32) Cell U64 WorkItem) : Seen where
  memory a := S.shared (.word a)
  prev thread := (S.priv thread).prev
  tmp thread := (S.priv thread).tmp
  refIndex thread := (S.priv thread).refIndex
  refLane thread := (S.priv thread).refLane
  memCurr thread := (S.priv thread).memCurr
  refs thread := (S.priv thread).refs

/-- Code of a warp that leads from what is seen of it to something else. -/
def Leads (jobsPerBlock : ℕ) (job : Fin batch) (x : Seen) (code : Code) (y : Seen) : Prop :=
  Triple (cellOwner batch jobsPerBlock) job (fun S => seen S = x) code fun S => seen S = y

variable {job : Fin batch} {x y z : Seen}

theorem Leads.append {xs ys : Code} (hx : Leads jobsPerBlock job x xs y)
    (hy : Leads jobsPerBlock job y ys z) : Leads jobsPerBlock job x (xs ++ ys) z :=
  Triple.append hx hy

theorem Leads.flatMap {ι : Type} {code : ι → Code} {step : Seen → ι → Seen} {P : Seen → Prop}
    {L : List ι}
    (h : ∀ i ∈ L, ∀ x, P x → Leads jobsPerBlock job x (code i) (step x i) ∧ P (step x i))
    (hx : P x) : Leads jobsPerBlock job x (L.flatMap code) (L.foldl step x) := by
  induction L generalizing x with
  | nil => exact Triple.nil
  | cons i L ih =>
    obtain ⟨hi, hstep⟩ := h i List.mem_cons_self x hx
    exact hi.append (ih (fun j hj => h j (List.mem_cons_of_mem i hj)) hstep)

/-- A computation that can be told from what is seen. -/
theorem leads_compute {f : Fin 32 → WorkItem → WorkItem} {F : Seen → Seen}
    (hF : ∀ S, seen ⟨S.shared, fun thread => f thread (S.priv thread)⟩ = F (seen S)) (x : Seen) :
    Leads jobsPerBlock job x (computeCode f) (F x) := by
  refine Triple.compute fun S hS => ?_
  rw [hF, hS]

/-- A load of a word of a block in the region of the job. -/
theorem leads_load {block : WorkItem → ℕ} {row : ℕ} (hrow : row < 4) {f : U64 → WorkItem → WorkItem}
    {c : Warp ℕ} (hc : ∀ t, c t / 8192 = job.val) {F : Seen → Seen}
    (hblock : ∀ S, seen S = x → ∀ t, block (S.priv t) = c t)
    (hF : ∀ S, seen ⟨S.shared, fun thread =>
      f ((seen S).memory (128 * c thread + (row * 32 + thread.val))) (S.priv thread)⟩
        = F (seen S)) :
    Leads jobsPerBlock job x [.act fun thread => .load (dataCell block row thread) f] (F x) := by
  refine Triple.act (fun S hS t => ?_) fun S hS => ?_
  · show cellOwner batch jobsPerBlock (.word (128 * block (S.priv t) + (row * 32 + t.val))) = _
    rw [hblock S hS]
    exact owner_word (hc t) hrow t
  · rw [run_load, ← hS, ← hF]
    refine congrArg seen (View.ext rfl (funext fun t => ?_))
    show f (S.shared (.word (128 * block (S.priv t) + (row * 32 + t.val)))) _ = _
    rw [hblock S hS]
    rfl

/-- The loads of a block whose number does not depend on what they change. -/
theorem leads_loadCode {src : WorkItem → ℕ} {set : Fin 4 → U64 → WorkItem → WorkItem}
    {number : Seen → Warp ℕ} {F : Seen → Fin 4 → Warp U64 → Seen}
    (hsrc : ∀ S t, src (S.priv t) = number (seen S) t)
    (hF : ∀ row (v : Warp U64) S,
      seen ⟨S.shared, fun t => set row (v t) (S.priv t)⟩ = F (seen S) row v)
    (hkeep : ∀ x row v, (F x row v).memory = x.memory ∧ number (F x row v) = number x)
    (hx : ∀ t, number x t / 8192 = job.val) :
    Leads jobsPerBlock job x (loadCode src set)
      ((List.finRange 4).foldl (fun y row => F y row fun t =>
        x.memory (128 * number x t + (row.val * 32 + t.val))) x) := by
  refine Leads.flatMap (P := fun y => y.memory = x.memory ∧ number y = number x) ?_ ⟨rfl, rfl⟩
  rintro row - y ⟨hmemory, hnumber⟩
  obtain ⟨hm, hn⟩ := hkeep y row fun t => x.memory (128 * number x t + (row.val * 32 + t.val))
  have hload : Leads jobsPerBlock job y
      [.act fun thread => .load (dataCell src row.val thread) (set row)]
      (F y row fun t => y.memory (128 * number x t + (row.val * 32 + t.val))) :=
    leads_load (F := fun y => F y row fun t => y.memory (128 * number x t + (row.val * 32 + t.val)))
      row.isLt hx (fun S hS t => by rw [hsrc S t, hS, hnumber]) fun S => hF row _ S
  rw [hmemory] at hload
  exact ⟨hload, hm.trans hmemory, hn.trans hnumber⟩

theorem leads_loadPrev {src : WorkItem → ℕ} (number : Seen → Warp ℕ)
    (hsrc : ∀ S t, src (S.priv t) = number (seen S) t)
    (hkeep : ∀ x prev, number { x with prev := prev } = number x)
    (hx : ∀ t, number x t / 8192 = job.val) :
    Leads jobsPerBlock job x (loadPrevCode src)
      { x with prev := fun t => loadBlock x.memory (number x t) t } :=
  leads_loadCode (F := fun x row v => { x with prev := fun t => (x.prev t).setReg row (v t) }) hsrc
    (fun _ _ _ => rfl) (fun _ _ _ => ⟨rfl, hkeep _ _⟩) hx

theorem leads_loadXorPrev {src : WorkItem → ℕ} (number : Seen → Warp ℕ)
    (hsrc : ∀ S t, src (S.priv t) = number (seen S) t)
    (hkeep : ∀ x prev, number { x with prev := prev } = number x)
    (hx : ∀ t, number x t / 8192 = job.val) :
    Leads jobsPerBlock job x (loadXorPrevCode src)
      { x with prev := fun t => loadBlockXor x.prev x.memory (number x t) t } :=
  leads_loadCode
    (F := fun x row v =>
      { x with prev := fun t => (x.prev t).setReg row ((x.prev t).reg row ^^^ v t) })
    hsrc (fun _ _ _ => rfl) (fun _ _ _ => ⟨rfl, hkeep _ _⟩) hx

theorem leads_loadTmp {src : WorkItem → ℕ} (number : Seen → Warp ℕ)
    (hsrc : ∀ S t, src (S.priv t) = number (seen S) t)
    (hkeep : ∀ x tmp, number { x with tmp := tmp } = number x)
    (hx : ∀ t, number x t / 8192 = job.val) :
    Leads jobsPerBlock job x (loadTmpCode src)
      { x with tmp := fun t => loadBlock x.memory (number x t) t } :=
  leads_loadCode (F := fun x row v => { x with tmp := fun t => (x.tmp t).setReg row (v t) }) hsrc
    (fun _ _ _ => rfl) (fun _ _ _ => ⟨rfl, hkeep _ _⟩) hx

/-- A value takes its way through the buffer of the warp. -/
theorem u64ShuffleCode_spec (hjobs : 0 < jobsPerBlock) {threadSrc : Warp ℕ}
    (hsrc : ∀ t, threadSrc t < 32) (x : Seen) (v : Warp U64) :
    Triple (cellOwner batch jobsPerBlock) job (fun S => seen S = x ∧ ∀ t, (S.priv t).v = v t)
      (u64ShuffleCode (bufOf jobsPerBlock job.val) threadSrc)
      fun S => seen S = x ∧ ∀ t, (S.priv t).v = u64Shuffle v threadSrc t := by
  have hlo := owner_lo hjobs job
  have hhi := owner_hi hjobs job
  have hsource : ∀ t, threadSrc t = (⟨threadSrc t, hsrc t⟩ : Fin 32).val := fun _ => rfl
  refine ⟨rfl, fun S _ => ?_, fun S hS => ?_⟩
  · exact ⟨fun _ => trivial, fun t => hlo t, fun t => hhi t,
      fun t => ⟨⟨threadSrc t, hsrc t⟩, hlo ⟨threadSrc t, hsrc t⟩⟩,
      fun t => ⟨⟨threadSrc t, hsrc t⟩, hhi ⟨threadSrc t, hsrc t⟩⟩, fun _ => trivial, trivial⟩
  · obtain ⟨rfl, hv⟩ := hS
    set buf := bufOf jobsPerBlock job.val with hbuf
    -- the slots of both halves are filled
    set filled := lockstep (cellOwner batch jobsPerBlock) ((u64ShuffleCode buf threadSrc).take 3) S
      with hfilled
    have hlow :
        ∀ t : Fin 32, filled.shared (.lo buf.group buf.warp t.val) = (u64Lo (v t)).setWidth 64 := by
      intro t
      refine (run_store_of_ne _ _ fun t' => by simp).trans ((run_store _ (hlo t)).trans ?_)
      rw [if_pos rfl, ← hv t]
      rfl
    have hhigh :
        ∀ t : Fin 32, filled.shared (.hi buf.group buf.warp t.val) = (u64Hi (v t)).setWidth 64 := by
      intro t
      refine (run_store _ (hhi t)).trans ?_
      rw [if_pos rfl, ← hv t]
      rfl
    have hword : ∀ a, filled.shared (.word a) = S.shared (.word a) := by
      intro a
      refine (run_store_of_ne _ _ fun t => by simp).trans
        ((run_store_of_ne _ _ fun t => by simp).trans ?_)
      rw [run_compute]
    have hend : lockstep (cellOwner batch jobsPerBlock) (u64ShuffleCode buf threadSrc) S
        = ⟨filled.shared, fun t => { S.priv t with
            lo := (filled.shared (.lo buf.group buf.warp (threadSrc t))).setWidth 32
            hi := (filled.shared (.hi buf.group buf.warp (threadSrc t))).setWidth 32
            v := u64Build ((filled.shared (.hi buf.group buf.warp (threadSrc t))).setWidth 32)
              ((filled.shared (.lo buf.group buf.warp (threadSrc t))).setWidth 32) }⟩ := by
      rw [← List.take_append_drop 3 (u64ShuffleCode buf threadSrc), lockstep_append, ← hfilled]
      simp only [u64ShuffleCode, List.drop_succ_cons, List.drop_zero, lockstep_cons, lockstep_nil,
        run_load, run_compute]
      rfl
    have hback : ∀ y : U32, (y.setWidth 64).setWidth 32 = y := fun y => by simp
    rw [hend]
    refine ⟨Seen.ext (funext hword) rfl rfl rfl rfl rfl rfl, fun t => ?_⟩
    have hl := hlow ⟨threadSrc t, hsrc t⟩
    have hh := hhigh ⟨threadSrc t, hsrc t⟩
    dsimp only at hl hh ⊢
    rw [u64Shuffle_eq v (fun t => ⟨threadSrc t, hsrc t⟩) hsource, hl, hh, hback, hback,
      u64Build_hi_lo]

theorem leads_shuffleReg (hjobs : 0 < jobsPerBlock) {thr : Warp ℕ} (hthr : ∀ t, thr t < 32)
    (idx : Warp ℕ) (x : Seen) :
    Leads jobsPerBlock job x (shuffleRegCode (bufOf jobsPerBlock job.val) idx thr)
      { x with prev := shuffleReg x.prev idx thr } := by
  have hget : Triple (cellOwner batch jobsPerBlock) job (fun S => seen S = x)
      (computeCode fun thread r => { r with v := blockThGet r.prev (idx thread) })
      fun S => seen S = x ∧ ∀ t, (S.priv t).v = blockThGet (x.prev t) (idx t) := by
    refine Triple.compute fun S hS => ⟨hS, fun t => ?_⟩
    rw [← hS]
    rfl
  refine (hget.append (u64ShuffleCode_spec hjobs hthr x _)).append (Triple.compute fun S hS => ?_)
  obtain ⟨rfl, hv⟩ := hS
  refine Seen.ext rfl (funext fun t => ?_) rfl rfl rfl rfl rfl
  show blockThSet (S.priv t).prev (idx t) (S.priv t).v = _
  rw [hv t]
  rfl

/-- A loop of shuffles. -/
theorem leads_shuffleLoop (hjobs : 0 < jobsPerBlock) {L : List ℕ} {idx thr : ℕ → Warp ℕ}
    (hthr : ∀ i ∈ L, ∀ t, thr i t < 32) (x : Seen) :
    Leads jobsPerBlock job x
      (L.flatMap fun i => shuffleRegCode (bufOf jobsPerBlock job.val) (idx i) (thr i))
      { x with prev := L.foldl (fun block i => shuffleReg block (idx i) (thr i)) x.prev } := by
  have hloop : ∀ (L : List ℕ) (x : Seen),
      L.foldl (fun x i => { x with prev := shuffleReg x.prev (idx i) (thr i) }) x
        = { x with prev := L.foldl (fun block i => shuffleReg block (idx i) (thr i)) x.prev } := by
    intro L
    induction L with
    | nil => exact fun _ => rfl
    | cons i L ih => exact fun x => ih _
  rw [← hloop]
  exact Leads.flatMap (P := fun _ => True)
    (fun i hi x _ => ⟨leads_shuffleReg hjobs (hthr i hi) (idx i) x, trivial⟩) trivial

/-- `shuffle_block`, work item by work item. -/
theorem leads_shuffleBlock (hjobs : 0 < jobsPerBlock) (amdMediaOps : Bool) (x : Seen) :
    Leads jobsPerBlock job x (shuffleBlockCode amdMediaOps (bufOf jobsPerBlock job.val))
      { x with prev := shuffleBlock amdMediaOps x.prev } := by
  have hg : ∀ x : Seen, Leads jobsPerBlock job x (gCode amdMediaOps)
      { x with prev := fun t => g amdMediaOps (x.prev t) } := fun x =>
    leads_compute (F := fun x => { x with prev := fun t => g amdMediaOps (x.prev t) })
      (fun _ => rfl) x
  have htranspose : ∀ x : Seen, Leads jobsPerBlock job x
      (transposeCode (bufOf jobsPerBlock job.val)) { x with prev := transpose x.prev } := fun x =>
    leads_shuffleLoop hjobs (by decide) x
  have hshift₁ : ∀ x : Seen, Leads jobsPerBlock job x
      (shuffleShift1Code (bufOf jobsPerBlock job.val)) { x with prev := shuffleShift1 x.prev } :=
    fun x => leads_shuffleLoop hjobs (by decide) x
  have hunshift₁ : ∀ x : Seen, Leads jobsPerBlock job x
      (shuffleUnshift1Code (bufOf jobsPerBlock job.val))
        { x with prev := shuffleUnshift1 x.prev } :=
    fun x => leads_shuffleLoop hjobs (by decide) x
  have hshift₂ : ∀ x : Seen, Leads jobsPerBlock job x
      (shuffleShift2Code (bufOf jobsPerBlock job.val)) { x with prev := shuffleShift2 x.prev } :=
    fun x => leads_shuffleLoop hjobs (by decide) x
  have hunshift₂ : ∀ x : Seen, Leads jobsPerBlock job x
      (shuffleUnshift2Code (bufOf jobsPerBlock job.val))
        { x with prev := shuffleUnshift2 x.prev } :=
    fun x => leads_shuffleLoop hjobs (by decide) x
  exact (((((((((htranspose _).append (hg _)).append (hshift₁ _)).append (hg _)).append
    (hunshift₁ _)).append (htranspose _)).append (hg _)).append (hshift₂ _)).append (hg _)).append
    (hunshift₂ _)

theorem mod_warp_lt (a : ℕ) : a % 32 < 32 := Nat.mod_lt a (by omega)

/-- One row of a block, stored by all threads. -/
def storeRow (c : ℕ) (x : Seen) (row : Fin 4) : Seen :=
  { x with memory := fun a =>
      if a / 32 = 4 * c + row.val then (x.prev ⟨a % 32, mod_warp_lt a⟩).reg row
      else x.memory a }

theorem leads_storeRow {c : ℕ} (hc : c / 8192 = job.val) (hcurr : x.memCurr = fun _ => c)
    (row : Fin 4) :
    Leads jobsPerBlock job x
      [.act fun thread => .store (dataCell WorkItem.memCurr row.val thread) fun r => r.prev.reg row]
      (storeRow c x row) := by
  have hcells : ∀ S, seen S = x → ∀ t, dataCell WorkItem.memCurr row.val t (S.priv t)
      = .word (128 * c + (row.val * 32 + t.val)) := fun S hS t => by
    have hc : (S.priv t).memCurr = c := by
      rw [← hS] at hcurr
      exact congrFun hcurr t
    rw [dataCell, hc]
  refine Triple.act (fun S hS t => ?_) fun S hS => ?_
  · show cellOwner batch jobsPerBlock (dataCell WorkItem.memCurr row.val t (S.priv t)) = _
    rw [hcells S hS]
    exact owner_word hc row.isLt t
  · have hcell := hcells S hS
    subst hS
    refine Seen.ext (funext fun a => ?_) rfl rfl rfl rfl rfl rfl
    rw [storeRow]
    dsimp only
    split
    case isTrue ha =>
      set t : Fin 32 := ⟨a % 32, Nat.mod_lt _ (by omega)⟩ with ht
      have hplace : a = 128 * c + (row.val * 32 + t.val) := by
        show a = 128 * c + (row.val * 32 + a % 32)
        omega
      refine (run_store S (p := (job, t)) ?_).trans (if_pos ?_)
      · rw [hplace]
        exact owner_word hc row.isLt t
      · rw [hcell, ← hplace]
    case isFalse ha =>
      refine run_store_of_ne _ S fun t heq => ha ?_
      rw [hcell] at heq
      have hplace : a = 128 * c + (row.val * 32 + t.val) := Cell.word.inj heq
      omega

theorem leads_storePrev {c : ℕ} (hc : c / 8192 = job.val) (hcurr : x.memCurr = fun _ => c) :
    Leads jobsPerBlock job x storePrevCode
      { x with memory := storeBlock (List.finRange 32) x.memory c x.prev } := by
  have hrows : (List.finRange 4).foldl (storeRow c) x
      = { x with memory := storeBlock (List.finRange 32) x.memory c x.prev } := by
    refine Seen.ext (funext fun a => ?_) rfl rfl rfl rfl rfl rfl
    by_cases ha : a / 128 = c
    · set r : Fin 4 := ⟨a / 32 - 4 * c, by omega⟩ with hr
      set t : Fin 32 := ⟨a % 32, mod_warp_lt a⟩ with ht
      have hrow : a / 32 = 4 * c + r.val := by
        show a / 32 = 4 * c + (a / 32 - 4 * c)
        omega
      have hplace : a = 128 * c + (r.val * 32 + t.val) := by
        show a = 128 * c + (r.val * 32 + a % 32)
        omega
      have hword := storeBlock_word (List.nodup_finRange 32) x.memory c x.prev t r
      rw [← hplace, if_pos (List.mem_finRange t)] at hword
      have hfold : ∀ r : Fin 4, a / 32 = 4 * c + r.val →
          ((List.finRange 4).foldl (storeRow c) x).memory a = (x.prev t).reg r := by
        intro r h
        fin_cases r <;> simp [List.finRange, storeRow, h, ht]
      exact (hfold r hrow).trans hword.symm
    · have hne : ∀ k < 4, a / 32 ≠ 4 * c + k := fun k hk h => ha (by omega)
      have hfold : ((List.finRange 4).foldl (storeRow c) x).memory a = x.memory a := by
        simpa [List.finRange, storeRow, hne] using fun h => absurd h (hne 0 (by omega))
      exact hfold.trans (storeBlock_frame _ _ _ _ (by omega)).symm
  rw [← hrows]
  exact Leads.flatMap (P := fun y => y.memCurr = fun _ => c)
    (fun row _ y hy => ⟨leads_storeRow hc hy row, hy⟩) hcurr

/-! ### A step of the fill -/

/-- `argon2_core`, work item by work item. -/
theorem leads_argon2Core (hjobs : 0 < jobsPerBlock) (amdMediaOps : Bool) (base : ℕ)
    (lanes pass : U32) {c : ℕ} (hc : c / 8192 = job.val) (hcurr : x.memCurr = fun _ => c)
    (href : ∀ t, (base + (x.refIndex t * lanes).toNat + (x.refLane t).toNat) / 8192 = job.val) :
    let out := argon2Core amdMediaOps x.memory base c x.prev lanes pass x.refIndex x.refLane
    ∃ tmp, Leads jobsPerBlock job x
      (argon2CoreCode amdMediaOps (bufOf jobsPerBlock job.val) base lanes pass)
      { x with memory := out.1, prev := out.2, tmp := tmp } := by
  intro out
  set loaded : Warp BlockTh := fun t =>
    loadBlockXor x.prev x.memory (base + (x.refIndex t * lanes).toNat + (x.refLane t).toNat) t
  set tmp : Warp BlockTh := if pass ≠ 0 then xorBlock (loadBlock x.memory c) loaded else loaded
    with htmp
  have hout : out = (storeBlock (List.finRange 32) x.memory c
      (xorBlock (shuffleBlock amdMediaOps loaded) tmp),
      xorBlock (shuffleBlock amdMediaOps loaded) tmp) := by
    show argon2Core _ _ _ _ _ _ _ _ _ = _
    rw [argon2Core, htmp]
    by_cases hpass : pass ≠ 0
    · rw [if_pos hpass, if_pos hpass]
    · rw [if_neg hpass, if_neg hpass]
  -- the loads
  have hload : ∀ tmp', Leads jobsPerBlock job { x with tmp := tmp' }
      (loadXorPrevCode (WorkItem.memRef base lanes))
      { x with tmp := tmp', prev := loaded } := fun _ =>
    leads_loadXorPrev
      (fun y t => base + (y.refIndex t * lanes).toNat + (y.refLane t).toNat)
      (fun _ _ => rfl) (fun _ _ => rfl) href
  have hfirst : Leads jobsPerBlock job x
      (if pass ≠ 0 then
        loadTmpCode WorkItem.memCurr ++ loadXorPrevCode (WorkItem.memRef base lanes)
          ++ computeCode fun _ r => { r with tmp := r.tmp.xor r.prev }
      else
        loadXorPrevCode (WorkItem.memRef base lanes) ++ computeCode fun _ r =>
          { r with tmp := r.prev })
      { x with prev := loaded, tmp := tmp } := by
    by_cases hpass : pass ≠ 0
    · rw [if_pos hpass, htmp, if_pos hpass]
      have hold : Leads jobsPerBlock job x (loadTmpCode WorkItem.memCurr)
          { x with tmp := fun t => loadBlock x.memory (x.memCurr t) t } :=
        leads_loadTmp Seen.memCurr (fun _ _ => rfl) (fun _ _ => rfl)
          (by rw [hcurr]; exact fun _ => hc)
      have hold' : (fun t => loadBlock x.memory (x.memCurr t) t) = loadBlock x.memory c := by
        rw [hcurr]
      rw [hold'] at hold
      exact (hold.append (hload _)).append
        (leads_compute (F := fun y => { y with tmp := xorBlock y.tmp y.prev }) (fun _ => rfl) _)
    · rw [if_neg hpass, htmp, if_neg hpass]
      exact (hload x.tmp).append
        (leads_compute (F := fun y => { y with tmp := y.prev }) (fun _ => rfl) _)
  refine ⟨tmp, ?_⟩
  rw [hout]
  exact ((hfirst.append (leads_shuffleBlock hjobs amdMediaOps _)).append
    (leads_compute (F := fun y => { y with prev := xorBlock y.prev y.tmp })
      (fun _ => rfl) _)).append
    (leads_storePrev hc hcurr)

/-- `mem_ref` for a reference of `compute_ref_pos`. -/
def refBlock (base : ℕ) (lanes segmentBlocks lane pass slice offset : U32) (v : U64) : ℕ :=
  let pos := computeRefPos lanes segmentBlocks pass lane slice offset (u64Hi v) (u64Lo v)
  base + (pos.2 * lanes).toNat + pos.1.toNat

/-- `argon2_step_precompute`, work item by work item, if the reference lies in the region of the
job. -/
theorem leads_argon2Step (hjobs : 0 < jobsPerBlock) (amdMediaOps : Bool) {table : Buffer Ref}
    {base c n : ℕ} {lanes segmentBlocks lane pass slice offset : U32} (hc : c / 8192 = job.val)
    (hcurr : x.memCurr = fun _ => c) (hrefs : x.refs = fun _ => n)
    (htable : pass = 0 ∧ slice < 2 →
      (base + ((table n).refIndex * lanes).toNat + (table n).refLane.toNat) / 8192 = job.val)
    (hpos : ¬ (pass = 0 ∧ slice < 2) →
      refBlock base lanes segmentBlocks lane pass slice offset (x.prev 0).a / 8192 = job.val) :
    let out := argon2StepPrecompute amdMediaOps table x.memory base c x.prev n lanes segmentBlocks
      lane pass slice offset
    ∃ y, Leads jobsPerBlock job x
        (argon2StepCode amdMediaOps (bufOf jobsPerBlock job.val) table base lanes segmentBlocks lane
          pass slice offset) y
      ∧ y.memory = out.1 ∧ y.prev = out.2.1 ∧ y.memCurr = (fun _ => c + lanes.toNat)
      ∧ y.refs = fun _ => out.2.2 := by
  intro out
  have hout : out = argon2StepPrecompute amdMediaOps table x.memory base c x.prev n lanes
    segmentBlocks lane pass slice offset := rfl
  have hnext : ∀ y : Seen, Leads jobsPerBlock job y
      (computeCode fun _ r => { r with memCurr := r.memCurr + lanes.toNat })
      { y with memCurr := fun t => y.memCurr t + lanes.toNat } := fun y =>
    leads_compute (F := fun y => { y with memCurr := fun t => y.memCurr t + lanes.toNat })
      (fun _ => rfl) y
  by_cases hind : pass = 0 ∧ slice < 2
  · -- from the table
    set y : Seen := { x with
      refIndex := fun t => (table (x.refs t)).refIndex
      refLane := fun t => (table (x.refs t)).refLane
      refs := fun t => x.refs t + 1 } with hy
    have hread : Leads jobsPerBlock job x (computeCode fun _ r =>
        { r with refIndex := (table r.refs).refIndex, refLane := (table r.refs).refLane,
                 refs := r.refs + 1 }) y :=
      leads_compute (F := fun x => { x with
        refIndex := fun t => (table (x.refs t)).refIndex
        refLane := fun t => (table (x.refs t)).refLane
        refs := fun t => x.refs t + 1 }) (fun _ => rfl) x
    have hindex : y.refIndex = fun _ => (table n).refIndex := by simp [hy, hrefs]
    have hlane : y.refLane = fun _ => (table n).refLane := by simp [hy, hrefs]
    obtain ⟨tmp, hcore⟩ := leads_argon2Core (x := y) hjobs amdMediaOps base lanes pass hc hcurr
      (by rw [hindex, hlane]; exact fun _ => htable hind)
    rw [hindex, hlane] at hcore
    rw [argon2StepPrecompute, if_pos hind] at hout
    rw [argon2StepCode, if_pos hind]
    refine ⟨_, (hread.append hcore).append (hnext _), ?_, ?_, ?_, ?_⟩
    · rw [hout]
    · rw [hout]
    · rw [hcurr]
    · rw [hout, hy, hrefs]
  · -- from the first word of the last block
    set v : Warp U64 := u64Shuffle (fun t => (x.prev t).a) fun _ => 0 with hv
    set pos : Warp (U32 × U32) := fun t =>
      computeRefPos lanes segmentBlocks pass lane slice offset (u64Hi (v t)) (u64Lo (v t)) with hp
    set y : Seen := { x with refIndex := fun t => (pos t).2, refLane := fun t => (pos t).1 } with hy
    have hfirst : Triple (cellOwner batch jobsPerBlock) job (fun S => seen S = x)
        (computeCode fun _ r => { r with v := r.prev.a })
        fun S => seen S = x ∧ ∀ t, (S.priv t).v = (x.prev t).a := by
      refine Triple.compute fun S hS => ⟨hS, fun t => ?_⟩
      rw [← hS]
      rfl
    have hread : Leads jobsPerBlock job x
        (computeCode (fun _ r => { r with v := r.prev.a })
          ++ u64ShuffleCode (bufOf jobsPerBlock job.val) (fun _ => 0)
          ++ computeCode fun _ r =>
            let pos :=
              computeRefPos lanes segmentBlocks pass lane slice offset (u64Hi r.v) (u64Lo r.v)
            { r with refIndex := pos.2, refLane := pos.1 }) y := by
      refine (hfirst.append (u64ShuffleCode_spec hjobs (fun _ => by decide) x _)).append
        (Triple.compute fun S hS => ?_)
      obtain ⟨rfl, hS⟩ := hS
      refine Seen.ext rfl rfl rfl (funext fun t => ?_) (funext fun t => ?_) rfl rfl
      · show (computeRefPos lanes segmentBlocks pass lane slice offset (u64Hi (S.priv t).v)
          (u64Lo (S.priv t).v)).2 = _
        rw [hS t]
      · show (computeRefPos lanes segmentBlocks pass lane slice offset (u64Hi (S.priv t).v)
          (u64Lo (S.priv t).v)).1 = _
        rw [hS t]
    have hword : ∀ t, v t = (x.prev 0).a := fun t => u64Shuffle_eq _ (fun _ => 0) (fun _ => rfl) t
    obtain ⟨tmp, hcore⟩ := leads_argon2Core (x := y) hjobs amdMediaOps base lanes pass hc hcurr
      fun t => by
        have h := hpos hind
        rw [refBlock, ← hword t] at h
        exact h
    rw [argon2StepPrecompute, if_neg hind] at hout
    rw [argon2StepCode, if_neg hind]
    refine ⟨_, (hread.append hcore).append (hnext _), ?_, ?_, ?_, ?_⟩
    · rw [hout]
    · rw [hout]
    · rw [hcurr]
    · rw [hout]
      exact hrefs

end

end Kernel
