/-
The fill under every schedule (`src/argon2_kernel.cl`, `run_argon_kernel` of `src/gpu.rs`).

A launch has 32 work items for each job, and the jobs of a work-group share its local
memory and its barriers.  Nothing is said about the order in which the work items act,
except that a barrier holds back a group until all of it has arrived.

* `loop_leads` — the loops of a work item are those of the warp;
* `oneshotPrecomputeCode_leads` — the kernel, for one job;
* `schedules_fill` — no schedule blocks, each ends, and all leave the memory of RFC 9106.
-/
import VelkarMiner.WorkItems

open Bytes Barriers

namespace Kernel

variable {batch jobsPerBlock : ℕ} {job : Fin batch} {table : Buffer Ref} {B : Argon2.Memory}

/-! ### The loops -/

/-- A warp of work items and a warp in lockstep. -/
structure Agrees (job : ℕ) (x : Seen) (s : LaunchState) : Prop where
  memory : x.memory = s.memory
  prev : x.prev = (s.regs job).prev
  memCurr : x.memCurr = fun _ => (s.regs job).memCurr
  refs : x.refs = fun _ => (s.regs job).refs

def LoopTurn.toTurn : LoopTurn → Option Turn
  | body pass slice offset => some (.body pass slice offset)
  | sliceEnd => none
  | passEnd => some .passEnd

/-- Without the ends of the slices the turns are those of the lockstep model. -/
theorem oneshotTurns_loopTurns (passes segmentBlocks : U32) :
    oneshotTurns passes segmentBlocks
      = Turn.start :: (loopTurns passes segmentBlocks).filterMap LoopTurn.toTurn := by
  have hend : List.filterMap LoopTurn.toTurn [LoopTurn.sliceEnd] = [] := rfl
  simp [oneshotTurns, loopTurns, List.filterMap_flatMap, List.filterMap_map, Function.comp_def,
    LoopTurn.toTurn, hend]

/-- The reference of a turn lies in the region of its job. -/
theorem refs_inRegion (htable : TableRight table) {k n : ℕ} (htwo : 2 ≤ k) (hk : k < 8192)
    (hn : n = min 4096 k) (j : ℕ) :
    let slice : U32 := BitVec.ofNat 32 (k / 2048)
    let offset : U32 := BitVec.ofNat 32 (k % 2048)
    ((0 : U32) = 0 ∧ slice < 2 →
        (8192 * j + ((table n).refIndex * 1).toNat + (table n).refLane.toNat) / 8192 = j)
      ∧ ∀ v, refBlock (8192 * j) 1 2048 0 0 slice offset v / 8192 = j := by
  intro slice offset
  have hregion :
      ∀ V, (8192 * j + ((refOf minerParams (Argon2.posAt minerParams k) V).refIndex * 1).toNat
      + (refOf minerParams (Argon2.posAt minerParams k) V).refLane.toNat) / 8192 = j := by
    intro V
    obtain ⟨hlane, hindex, hlt⟩ := ref_lt htwo hk V
    rw [hindex, hlane]
    show (8192 * j + _ + 0) / 8192 = j
    omega
  constructor
  · rintro ⟨-, hslice⟩
    have hlow : k < 4096 := by
      rw [BitVec.lt_def, BitVec.toNat_ofNat, Nat.mod_eq_of_lt (by omega)] at hslice
      have h : k / 2048 < 2 := hslice
      omega
    rw [hn, Nat.min_eq_right (by omega), htable k htwo hlow]
    exact hregion _
  · intro v
    rw [refBlock, computeRefPos_refOf (refPosArgs htwo hk) v, posOf_eq hk]
    exact hregion v

/-- A turn of the innermost loop. -/
theorem body_leads (hjobs : 0 < jobsPerBlock) (amdMediaOps : Bool) (htable : TableRight table)
    (hjob : job.val < 2 ^ 32) {k : ℕ} (hk : k < 8192) {x : Seen} {s : LaunchState}
    (h : Running B job k s) (hx : Agrees job x s) :
    let slice : U32 := BitVec.ofNat 32 (k / 2048)
    let offset : U32 := BitVec.ofNat 32 (k % 2048)
    let s' := launchTurn amdMediaOps table 1 2048 s (job, .body 0 slice offset)
    if (s.regs job).skip > 0 then
      Agrees job x s' ∧ (s'.regs job).skip = (s.regs job).skip - 1
    else
      (s'.regs job).skip = (s.regs job).skip ∧ ∃ y, Agrees job y s' ∧ Leads jobsPerBlock job x
        (argon2StepCode amdMediaOps (bufOf jobsPerBlock job.val) table (8192 * job.val) 1 2048 0 0
          slice offset) y := by
  intro slice offset s'
  have hs' : s' = launchTurn amdMediaOps table 1 2048 s (job, .body 0 slice offset) := rfl
  rw [launchTurn, oneshotTurn] at hs'
  dsimp only at hs'
  rw [base_eq hjob] at hs'
  split
  case isTrue hskip =>
    rw [if_pos hskip] at hs'
    have hmemory : s'.memory = s.memory := by rw [hs']
    have hregs : s'.regs job = { s.regs job with skip := (s.regs job).skip - 1 } :=
      (congrArg (fun s : LaunchState => s.regs job) hs').trans (Function.update_self _ _ _)
    rw [hregs]
    refine ⟨⟨hx.memory.trans hmemory.symm, ?_, ?_, ?_⟩, rfl⟩
    · rw [hregs]
      exact hx.prev
    · rw [hregs]
      exact hx.memCurr
    · rw [hregs]
      exact hx.refs
  case isFalse hskip =>
    have htwo : 2 ≤ k := by
      have hzero := h.skip
      rw [gt_iff_lt, BitVec.lt_def] at hskip
      have h0 : ¬ 0 < (s.regs job).skip.toNat := hskip
      omega
    have hmax : max 2 k = k := Nat.max_eq_right htwo
    have hcurr : (s.regs job).memCurr / 8192 = job.val := by
      rw [h.memCurr, hmax]
      omega
    have hrefs := h.refs
    rw [hmax] at hrefs
    obtain ⟨htab, hpos⟩ := refs_inRegion htable htwo hk hrefs job.val
    rw [if_neg hskip] at hs'
    obtain ⟨y, hy, hmemory, hprev, hcurr', hrefs'⟩ := leads_argon2Step hjobs amdMediaOps hcurr
      hx.memCurr hx.refs htab fun _ => hpos _
    rw [hx.memory, hx.prev] at hmemory hprev hrefs'
    have hmemory' : s'.memory = _ := congrArg LaunchState.memory hs'
    have hregs : s'.regs job = _ :=
      (congrArg (fun s : LaunchState => s.regs job) hs').trans (Function.update_self _ _ _)
    rw [hregs]
    refine ⟨rfl, y, ⟨hmemory.trans hmemory'.symm, ?_, ?_, ?_⟩, hy⟩
    · rw [hregs]
      exact hprev
    · rw [hregs]
      exact hcurr'
    · rw [hregs]
      exact hrefs'

/-- The first of the turns that are left. -/
theorem turn_of_drop {n : ℕ} {t : Turn} {turns : List Turn}
    (h : (oneshotTurns 1 2048).drop n = t :: turns) :
    (oneshotTurns 1 2048)[n]? = some t ∧ (oneshotTurns 1 2048).drop (n + 1) = turns := by
  constructor
  · rw [← List.head?_drop, h, List.head?_cons]
  · rw [← List.tail_drop, h, List.tail_cons]

/-- The loops from a turn on. -/
theorem loop_leads (hjobs : 0 < jobsPerBlock) (amdMediaOps : Bool) (htable : TableRight table)
    (hbatch : batch ≤ 2 ^ 32) {turns : List LoopTurn} {n : ℕ} {x : Seen} {s : LaunchState}
    (hrest : (oneshotTurns 1 2048).drop n = turns.filterMap LoopTurn.toTurn) (hn : n ≤ 8194)
    (h : JobFilled B job n s) (hx : Agrees job x s) :
    ∃ y s', Leads jobsPerBlock job x
        (loopCode (argon2StepCode amdMediaOps (bufOf jobsPerBlock job.val) table (8192 * job.val) 1
          2048 0) (8192 * job.val) (s.regs job).skip turns) y
      ∧ y.memory = s'.memory ∧ JobFilled B job 8194 s' := by
  have hjob : job.val < 2 ^ 32 := lt_of_lt_of_le job.isLt hbatch
  induction turns generalizing n x s with
  | nil =>
    have hlen := congrArg List.length hrest
    rw [List.length_drop, length_oneshotTurns] at hlen
    have hend : n = 8194 := by
      have : 8194 - n = 0 := hlen
      omega
    subst hend
    exact ⟨x, s, Triple.nil, hx.memory, h⟩
  | cons turn turns ih =>
    cases turn with
    | sliceEnd =>
      obtain ⟨y, s', hy, hdone⟩ := ih hrest hn h hx
      have hbarrier : Leads jobsPerBlock job x [.barrier .own] x :=
        ⟨rfl, fun _ _ => trivial, fun _ hS => hS⟩
      exact ⟨y, s', hbarrier.append hy, hdone⟩
    | passEnd =>
      obtain ⟨hturn, hdrop⟩ := turn_of_drop (t := .passEnd) hrest
      rcases oneshotTurns_getElem? hturn with ⟨-, ht⟩ | ⟨_, _, -, ht⟩ | ⟨rfl, -⟩
      · cases ht
      · cases ht
      · have hnext := (launchTurn_next amdMediaOps htable hbatch
          (by rw [launchProgram, if_pos job.isLt]; exact hturn) h).1
        set s' := launchTurn amdMediaOps table 1 2048 s (job, .passEnd) with hs'
        have hregs : s'.regs job = { s.regs job with memCurr := 8192 * job.val } := by
          rw [hs', launchTurn, oneshotTurn]
          dsimp only
          rw [base_eq hjob, Function.update_self]
          rfl
        obtain ⟨y, s'', hy, hdone⟩ := ih (x := { x with memCurr := fun _ => 8192 * job.val }) hdrop
          (by omega) hnext ⟨hx.memory, by rw [hregs]; exact hx.prev, by rw [hregs],
            by rw [hregs]; exact hx.refs⟩
        rw [hregs] at hy
        exact ⟨y, s'', (leads_compute (F := fun x => { x with memCurr := fun _ => 8192 * job.val })
          (fun _ => rfl) x).append hy, hdone⟩
    | body pass slice offset =>
      obtain ⟨hturn, hdrop⟩ := turn_of_drop (t := .body pass slice offset) hrest
      rcases oneshotTurns_getElem? hturn with ⟨-, ht⟩ | ⟨k, hk, rfl, ht⟩ | ⟨-, ht⟩
      · cases ht
      · cases ht
        have hnext := (launchTurn_next amdMediaOps htable hbatch
          (by rw [launchProgram, if_pos job.isLt]; exact hturn) h).1
        rw [JobFilled, if_pos (by omega)] at h
        have hbody := body_leads hjobs amdMediaOps htable hjob hk h hx
        rw [loopCode]
        dsimp only at hbody
        split at hbody
        case isTrue hskip =>
          obtain ⟨hagrees, hskip'⟩ := hbody
          rw [if_pos hskip, ← hskip']
          exact ih hdrop (by omega) hnext hagrees
        case isFalse hskip =>
          obtain ⟨hskip', y, hagrees, hy⟩ := hbody
          rw [if_neg hskip, ← hskip']
          obtain ⟨z, s', hz, hdone⟩ := ih hdrop (by omega) hnext hagrees
          exact ⟨z, s', hy.append hz, hdone⟩
      · cases ht

/-! ### The kernel -/

/-- The kernel for one job. -/
theorem oneshotPrecomputeCode_leads (hjobs : 0 < jobsPerBlock) (amdMediaOps : Bool)
    (htable : TableRight table) (hbatch : batch ≤ 2 ^ 32) {x : Seen}
    (hfirst : B 0 0 = blockAt x.memory (8192 * job))
    (hsecond : B 0 1 = blockAt x.memory (8192 * job + 1)) :
    ∃ y, Leads jobsPerBlock job x
        (oneshotPrecomputeCode amdMediaOps (bufOf jobsPerBlock job.val) table 1 1 2048
          (BitVec.ofNat 32 job.val) 0) y
      ∧ ∀ c < 8192, blockAt y.memory (8192 * job + c) = Argon2.fill minerParams B 0 c := by
  have hjob : job.val < 2 ^ 32 := lt_of_lt_of_le job.isLt hbatch
  set s : LaunchState := ⟨x.memory, fun _ => ⟨x.prev, 0, 0, 0⟩⟩ with hs
  have hfilled : Filled B job 0 s := by
    refine ⟨fun c hc => ?_⟩
    rw [Argon2.filled_of_le _ (by omega)]
    rcases (show c = 0 ∨ c = 1 by omega) with rfl | rfl
    · exact hfirst.symm
    · exact hsecond.symm
  set s' := launchTurn amdMediaOps table 1 2048 s (job, .start) with hs'
  have hmemory : s'.memory = x.memory := rfl
  have hregs : s'.regs job
      = ⟨loadBlock x.memory (8192 * job.val + 1), 8192 * job.val + 2, 2, 2⟩ := by
    rw [hs', launchTurn, oneshotTurn]
    dsimp only
    rw [base_eq hjob, Function.update_self]
    rfl
  have hstart : Running B job 0 s' := (start_turn amdMediaOps hjob hfilled).1
  set y : Seen := { x with
    memCurr := fun _ => 8192 * job.val + 2
    prev := loadBlock x.memory (8192 * job.val + 1)
    refs := fun _ => 2 } with hy
  have hagrees : Agrees job y s' :=
    ⟨rfl, by rw [hregs], by rw [hregs], by rw [hregs]⟩
  have hrest : (oneshotTurns 1 2048).drop 1 = (loopTurns 1 2048).filterMap LoopTurn.toTurn := by
    rw [oneshotTurns_loopTurns]
    rfl
  obtain ⟨z, s'', hz, hmem, hdone⟩ :=
    loop_leads hjobs amdMediaOps htable hbatch hrest (by omega) hstart hagrees
  rw [hregs] at hz
  have hdone' : Filled B job 8192 s'' := hdone
  refine ⟨z, ?_, fun c hc => ?_⟩
  · have hbase := base_eq hjob
    rw [oneshotPrecomputeCode, hbase]
    have hlead : Leads jobsPerBlock job x
        (computeCode
          (fun _ r => { r with memCurr := 8192 * job.val + (0 : U32).toNat + (2 * 1 : U32).toNat })
          ++ loadPrevCode (fun _ => 8192 * job.val + (0 : U32).toNat + (1 * 1 : U32).toNat)
          ++ computeCode fun _ r =>
            { r with refs := ((0 : U32) * (4 * 2048 / 2) + 2).toNat }) y := by
      refine ((leads_compute (F := fun x => { x with memCurr := fun _ => 8192 * job.val + 2 })
        (fun _ => rfl) x).append (leads_loadPrev (fun _ _ => 8192 * job.val + 1) (fun _ _ => rfl)
          (fun _ _ => rfl) fun _ => ?_)).append
        (leads_compute (F := fun x => { x with refs := fun _ => 2 }) (fun _ => rfl) _)
      show (8192 * job.val + 1) / 8192 = job.val
      omega
    exact hlead.append hz
  · rw [hmem, Argon2.fill_eq rfl rfl (by decide)]
    exact hdone'.blocks c (by omega)

/-! ### Every schedule -/

section

variable (amdMediaOps : Bool) (buf buf' : Buf)

theorem barriers_append (xs ys : Code) : barriers (xs ++ ys) = barriers xs + barriers ys :=
  List.countP_append

theorem barriers_flatMap {ι : Type} {L : List ι} {code : ι → Code} {n : ℕ}
    (h : ∀ i ∈ L, barriers (code i) = n) : barriers (L.flatMap code) = L.length * n := by
  induction L with
  | nil => simp [barriers]
  | cons i L ih =>
    rw [List.flatMap_cons, barriers_append, h i List.mem_cons_self,
      ih fun j hj => h j (List.mem_cons_of_mem i hj), List.length_cons]
    ring

theorem barriers_compute (f : Fin 32 → WorkItem → WorkItem) : barriers (computeCode f) = 0 := rfl

theorem barriers_load (src : WorkItem → ℕ) (set : Fin 4 → U64 → WorkItem → WorkItem) :
    barriers (loadCode src set) = 0 :=
  (barriers_flatMap (n := 0) fun _ _ => rfl).trans (Nat.mul_zero _)

theorem barriers_shuffleLoop (L : List ℕ) (idx thr : ℕ → Warp ℕ) :
    barriers (L.flatMap fun i => shuffleRegCode buf (idx i) (thr i)) = L.length * 2 :=
  barriers_flatMap fun _ _ => rfl

/-- Two for each of the 22 shuffles. -/
theorem barriers_shuffleBlock : barriers (shuffleBlockCode amdMediaOps buf) = 44 := by
  simp only [shuffleBlockCode, transposeCode, shuffleShift1Code, shuffleUnshift1Code,
    shuffleShift2Code, shuffleUnshift2Code, gCode, barriers_append, barriers_shuffleLoop,
    barriers_compute, List.length_range, List.length_range']

/-- A step has as many barriers whatever its buffer and its region are. -/
theorem barriers_step (table : Buffer Ref) (base base' : ℕ)
    (lanes segmentBlocks lane pass slice offset : U32) :
    barriers (argon2StepCode amdMediaOps buf table base lanes segmentBlocks lane pass slice offset)
      = barriers (argon2StepCode amdMediaOps buf' table base' lanes segmentBlocks lane pass slice
        offset) := by
  have hcore : ∀ buf base, barriers (argon2CoreCode amdMediaOps buf base lanes pass) = 44 := by
    intro buf base
    have hstore : barriers storePrevCode = 0 :=
      (barriers_flatMap (n := 0) fun _ _ => rfl).trans (Nat.mul_zero _)
    rw [argon2CoreCode]
    split <;>
      simp only [barriers_append, loadTmpCode, loadXorPrevCode, barriers_load, barriers_compute,
        barriers_shuffleBlock, hstore]
  have hshuffle : ∀ buf, barriers (u64ShuffleCode buf fun _ => 0) = 2 := fun _ => rfl
  rw [argon2StepCode, argon2StepCode]
  simp only [barriers_append, hcore, barriers_compute]
  split <;> simp only [barriers_append, barriers_compute, hshuffle]

end

theorem barriers_loop {step step' : U32 → U32 → U32 → Code}
    (h : ∀ pass slice offset,
      barriers (step pass slice offset) = barriers (step' pass slice offset))
    (memLane memLane' : ℕ) (skip : U32) (turns : List LoopTurn) :
    barriers (loopCode step memLane skip turns)
      = barriers (loopCode step' memLane' skip turns) := by
  induction turns generalizing skip with
  | nil => rfl
  | cons turn turns ih =>
    cases turn with
    | body pass slice offset =>
      rw [loopCode, loopCode]
      split
      · exact ih (skip - 1)
      · rw [barriers_append, barriers_append, h, ih]
    | sliceEnd => rw [loopCode, loopCode, barriers_barrier, barriers_barrier, ih]
    | passEnd =>
      rw [loopCode, loopCode, barriers_append, barriers_append, ih, barriers_compute,
        barriers_compute]

theorem barriers_kernel (amdMediaOps : Bool) (buf buf' : Buf) (table : Buffer Ref)
    (passes lanes segmentBlocks jobId jobId' lane : U32) :
    barriers (oneshotPrecomputeCode amdMediaOps buf table passes lanes segmentBlocks jobId lane)
      = barriers (oneshotPrecomputeCode amdMediaOps buf' table passes lanes segmentBlocks jobId'
        lane) := by
  rw [oneshotPrecomputeCode, oneshotPrecomputeCode]
  simp only [barriers_append]
  refine congrArg₂ (· + ·) ?_ (barriers_loop (fun pass slice offset => ?_) _ _ _ _)
  · simp only [barriers_compute, loadPrevCode, barriers_load]
  · exact barriers_step _ _ _ _ _ _ _ _ _ _ _ _

/-- The launch of `run_argon_kernel`: the jobs of a work-group share its barriers. -/
def workItems (amdMediaOps : Bool) (batch jobsPerBlock : ℕ) (table : Buffer Ref)
    (memory : Cell → U64) (items : Fin batch × Fin 32 → WorkItem) :
    Machine (Barriers.State (Fin batch) (Fin 32) Cell U64 WorkItem)
      (Event (Fin batch) (Fin 32) ℕ) :=
  machine (fun job : Fin batch => job.val / jobsPerBlock)
    (fun job => oneshotPrecomputeCode amdMediaOps (bufOf jobsPerBlock job.val) table 1 1 2048
      (BitVec.ofNat 32 job.val) 0) memory items

/-- The global memory. -/
def words (memory : Cell → U64) : Buffer U64 := fun a => memory (.word a)

/-- Whatever the schedule of the work items, whatever their variables and the local memory hold at
first: the launch goes on until all of them are done, that is after boundedly many steps, and then
the region of every job is filled as RFC 9106 says. -/
theorem schedules_fill (amdMediaOps : Bool) (htable : TableRight table) (hjobs : 0 < jobsPerBlock)
    (hbatch : batch ≤ 2 ^ 32) (memory : Cell → U64) (items : Fin batch × Fin 32 → WorkItem) :
    (∃ bound, ∀ tr s, (workItems amdMediaOps batch jobsPerBlock table memory items).Run tr s →
      tr.length ≤ bound)
    ∧ (∃ tr s, (workItems amdMediaOps batch jobsPerBlock table memory items).Run tr s
      ∧ ∀ e t, ¬ (workItems amdMediaOps batch jobsPerBlock table memory items).step s e t)
    ∧ ∀ tr s, (workItems amdMediaOps batch jobsPerBlock table memory items).Run tr s →
      (∀ e t, ¬ (workItems amdMediaOps batch jobsPerBlock table memory items).step s e t) →
      (∀ p, s.todo p = []) ∧ ∀ (job : Fin batch) (B : Argon2.Memory),
        B 0 0 = blockAt (words memory) (8192 * job) →
        B 0 1 = blockAt (words memory) (8192 * job + 1) →
        ∀ c < 8192, blockAt (words s.shared) (8192 * job + c) = Argon2.fill minerParams B 0 c := by
  refine ⟨⟨_, fun tr s h => le_trans (Nat.le_add_right _ _) (schedule_le h)⟩, exists_stuck _ _ _,
    fun tr s h hstuck => ?_⟩
  set program := fun job : Fin batch => oneshotPrecomputeCode amdMediaOps
    (bufOf jobsPerBlock job.val) table 1 1 2048 (BitVec.ofNat 32 job.val) 0 with hprogram
  have hwell : Well (cellOwner batch jobsPerBlock) (fun job : Fin batch => job.val / jobsPerBlock)
      program memory items := by
    refine ⟨fun job => ?_, fun job job' _ => barriers_kernel _ _ _ _ _ _ _ _ _ _⟩
    set B : Argon2.Memory := fun _ c => blockAt (words memory) (8192 * job + c) with hB
    have hfirst : B 0 0 = blockAt (seen (start memory items job)).memory (8192 * job) := rfl
    have hsecond : B 0 1 = blockAt (seen (start memory items job)).memory (8192 * job + 1) := rfl
    obtain ⟨y, hy, -⟩ :=
      oneshotPrecomputeCode_leads hjobs amdMediaOps htable hbatch hfirst hsecond
    exact hy.disciplined _ rfl
  have hdone := finished_of_stuck hwell h hstuck
  refine ⟨hdone, fun job B hfirst hsecond c hc => ?_⟩
  have hfirst : B 0 0 = blockAt (seen (start memory items job)).memory (8192 * job) := hfirst
  have hsecond : B 0 1 = blockAt (seen (start memory items job)).memory (8192 * job + 1) := hsecond
  obtain ⟨y, hy, hfill⟩ :=
    oneshotPrecomputeCode_leads hjobs amdMediaOps htable hbatch hfirst hsecond
  -- the warp of the job in lockstep
  obtain ⟨S, hS⟩ : ∃ S, S = lockstep (cellOwner batch jobsPerBlock) (program job)
    (start memory items job) := ⟨_, rfl⟩
  have hend : seen S = y := by
    rw [hS]
    exact hy.post _ rfl
  have hshared :
      ∀ t a, cellOwner batch jobsPerBlock a = some (job, t) → s.shared a = S.shared a := by
    rw [hS]
    exact fun t => (done_of_finished hwell h hdone job t).2
  rw [← hfill c hc, ← hend]
  apply Vector.ext
  intro i hi
  rw [blockAt, blockAt, Vector.getElem_ofFn, Vector.getElem_ofFn]
  -- the word belongs to one of the work items of the job
  set t : Fin 32 := ⟨i % 32, Nat.mod_lt _ (by omega)⟩ with ht
  have hplace : 128 * (8192 * job.val + c) + i
      = 128 * (8192 * job.val + c) + (i / 32 * 32 + t.val) := by
    show _ = 128 * (8192 * job.val + c) + (i / 32 * 32 + i % 32)
    omega
  have howner : cellOwner batch jobsPerBlock (.word (128 * (8192 * job.val + c) + i))
      = some (job, t) := by
    rw [hplace]
    exact owner_word (by omega) (by omega) t
  exact hshared t _ howner

/-- Two jobs that share a work-group. -/
theorem schedules_fill_pair :
    ∃ (tr : List _) (s : Barriers.State (Fin 2) (Fin 32) Cell U64 WorkItem),
    (workItems false 2 2 (precomputeTable false (List.range 32) fun _ => ⟨0, 0⟩) (fun _ => 0)
      fun _ => ⟨⟨0, 0, 0, 0⟩, ⟨0, 0, 0, 0⟩, 0, 0, 0, 0, 0, 0, 0⟩).Run tr s
    ∧ (∀ p, s.todo p = []) ∧ ∀ job < 2, ∀ c < 8192,
      blockAt (words s.shared) (8192 * job + c)
        = Argon2.fill minerParams (fun _ _ => Argon2.zeroBlock) 0 c := by
  obtain ⟨-, ⟨tr, s, h, hstuck⟩, hall⟩ := schedules_fill false
    (precomputeTable_right false (List.Perm.refl _) fun _ => ⟨0, 0⟩) (show 0 < 2 by decide)
    (show 2 ≤ 2 ^ 32 by decide)
    (fun _ => 0) fun _ => ⟨⟨0, 0, 0, 0⟩, ⟨0, 0, 0, 0⟩, 0, 0, 0, 0, 0, 0, 0⟩
  obtain ⟨hdone, hfill⟩ := hall tr s h hstuck
  have hzero : ∀ n, Argon2.zeroBlock = blockAt (words fun _ => 0) n := by
    intro n
    apply Vector.ext
    intro i hi
    simp [Argon2.zeroBlock, blockAt, words]
  exact ⟨tr, s, h, hdone, fun job hjob c hc => hfill ⟨job, hjob⟩ _ (hzero _) (hzero _) c hc⟩

end Kernel
