/-
The filled memory (`src/argon2_kernel.cl`).

Jobs run side by side: the turns of a launch are those of its jobs in any order that keeps
each job's own.  How far a job is can be told from the number of its turns, whatever the
others do.

* `body_next`, `launchTurn_next` — a turn computes the next column of RFC 9106 and changes
  nothing outside the region of its job;
* `launch_fills`, `launch_done` — every job, at any point of a launch and after it;
* `exports_right` — the digests that `velkar_export_stage4` hands out;
* `memory_fill_is_argon2id` — table, fill and tag together;
* `stage4_is_argon2id` — from password and salt to the tag.
-/
import VelkarMiner.FillSteps
import VelkarMiner.KernelBlake2bStreams
import VelkarMiner.Searchers

open Bytes

namespace Kernel

/-! ### How far a job is -/

/-- The columns below `k` of the region of a job are those of RFC 9106. -/
structure Filled (B : Argon2.Memory) (job k : ℕ) (s : LaunchState) : Prop where
  blocks : ∀ c < max 2 k,
    blockAt s.memory (8192 * job + c) = Argon2.filled minerParams B k 0 c

/-- The variables of a job whose next column is `k`; the first two columns are skipped. -/
structure Running (B : Argon2.Memory) (job k : ℕ) (s : LaunchState) : Prop
    extends Filled B job k s where
  prev : Spread (s.regs job).prev (Argon2.filled minerParams B k 0 (max 2 k - 1))
  memCurr : (s.regs job).memCurr = 8192 * job + max 2 k
  refs : (s.regs job).refs = min 4096 (max 2 k)
  skip : (s.regs job).skip.toNat = 2 - k

/-- A job after `n` turns: one before the loops, 8192 in them and one after the pass. -/
def JobFilled (B : Argon2.Memory) (job : ℕ) : ℕ → LaunchState → Prop
  | 0, s => Filled B job 0 s
  | k + 1, s => if k ≤ 8192 then Running B job k s else Filled B job 8192 s

/-- The table holds the references of the first two slices. -/
def TableRight (table : Buffer Ref) : Prop :=
  ∀ c, 2 ≤ c → c < 4096 → table c = refOf minerParams (Argon2.posAt minerParams c)
    (addressWord minerParams (Argon2.posAt minerParams c))

/-- Nothing changes outside the region of a job. -/
def OnlyRegion (job : ℕ) (memory memory' : Buffer U64) : Prop :=
  ∀ a, a < 128 * (8192 * job) ∨ 128 * (8192 * job + 8192) ≤ a → memory' a = memory a

section

variable (amdMediaOps : Bool) {table : Buffer Ref} {B : Argon2.Memory} {job k : ℕ}
  {s s' : LaunchState}

theorem OnlyRegion.blockAt_of_ne {memory memory' : Buffer U64} (h : OnlyRegion job memory memory')
    {j c : ℕ} (hj : j ≠ job) (hc : c < 8192) :
    blockAt memory' (8192 * j + c) = blockAt memory (8192 * j + c) := by
  apply Vector.ext
  intro i hi
  rw [blockAt, blockAt, Vector.getElem_ofFn, Vector.getElem_ofFn]
  exact h _ (by omega)

theorem Filled.congr (h : Filled B job k s) (hk : k ≤ 8192)
    (hmemory : ∀ c < 8192, blockAt s'.memory (8192 * job + c) = blockAt s.memory (8192 * job + c)) :
    Filled B job k s' where
  blocks c hc := (hmemory c (by omega)).trans (h.blocks c hc)

/-- A job depends on its region and its variables only. -/
theorem JobFilled.congr {n : ℕ} (h : JobFilled B job n s)
    (hmemory : ∀ c < 8192, blockAt s'.memory (8192 * job + c) = blockAt s.memory (8192 * job + c))
    (hregs : s'.regs job = s.regs job) : JobFilled B job n s' := by
  cases n with
  | zero => exact Filled.congr (k := 0) h (by omega) hmemory
  | succ k =>
    rw [JobFilled] at h ⊢
    split
    case isTrue hk =>
      rw [if_pos hk] at h
      exact { h.toFilled.congr hk hmemory with
        prev := by rw [hregs]; exact h.prev
        memCurr := by rw [hregs]; exact h.memCurr
        refs := by rw [hregs]; exact h.refs
        skip := by rw [hregs]; exact h.skip }
    case isFalse hk =>
      rw [if_neg hk] at h
      exact h.congr (Nat.le_refl _) hmemory

/-- The first block of the region of a job. -/
theorem base_eq (hjob : job < 2 ^ 32) :
    (BitVec.ofNat 32 job).toNat * (1 : U32).toNat * (4 * 2048 : U32).toNat = 8192 * job := by
  rw [BitVec.toNat_ofNat, Nat.mod_eq_of_lt hjob]
  show job * 1 * 8192 = _
  omega

/-- The place of a turn of the innermost loop. -/
theorem posOf_eq (hk : k < 8192) :
    posOf 0 (BitVec.ofNat 32 (k / 2048)) 0 (BitVec.ofNat 32 (k % 2048))
      = Argon2.posAt minerParams k := by
  have hslice : (BitVec.ofNat 32 (k / 2048)).toNat = k / 2048 := by
    rw [BitVec.toNat_ofNat, Nat.mod_eq_of_lt (by omega)]
  have hoffset : (BitVec.ofNat 32 (k % 2048)).toNat = k % 2048 := by
    rw [BitVec.toNat_ofNat, Nat.mod_eq_of_lt (by omega)]
  rw [posOf, hslice, hoffset]
  rfl

theorem refPosArgs (htwo : 2 ≤ k) (hk : k < 8192) :
    RefPosArgs 1 2048 0 0 (BitVec.ofNat 32 (k / 2048)) (BitVec.ofNat 32 (k % 2048))
      minerParams where
  lanes_eq := rfl
  segLen_eq := rfl
  two_le := by decide
  bounded := by decide
  lane_lt := by decide
  valid := by
    rw [posOf_eq hk]
    exact Argon2.posAt_valid (by decide) htwo hk

/-- The reference of a column lies in front of its predecessor, in the region of the job. -/
theorem ref_lt (htwo : 2 ≤ k) (hk : k < 8192) (V : U64) :
    (refOf minerParams (Argon2.posAt minerParams k) V).refLane = 0
      ∧ ((refOf minerParams (Argon2.posAt minerParams k) V).refIndex * 1).toNat
        = Argon2.refColumn minerParams (Argon2.posAt minerParams k) 0 (Argon2.J1 V)
      ∧ Argon2.refColumn minerParams (Argon2.posAt minerParams k) 0 (Argon2.J1 V) + 1 < k := by
  have hlt := Argon2.refColumn_lt (Argon2.posAt_valid (p := minerParams) (by decide) htwo hk) rfl
    (by rwa [Argon2.col_posAt]) (Argon2.J1 V)
  rw [Argon2.col_posAt] at hlt
  rw [refOf, Argon2.refLane_posAt rfl]
  refine ⟨rfl, ?_, hlt⟩
  show (BitVec.ofNat 32 _ * 1#32).toNat = _
  rw [BitVec.mul_one, BitVec.toNat_ofNat]
  exact Nat.mod_eq_of_lt (Nat.lt_trans (Nat.lt_of_succ_lt hlt) (by omega))

/-- The value J1 ∥ J2 of a step is that of RFC 9106. -/
theorem stepWord_eq (htwo : 2 ≤ k) (hk : k < 8192) (C : Argon2.Memory) :
    stepWord minerParams (Argon2.posAt minerParams k) (C 0 (k - 1))
      = Argon2.pseudoRand minerParams C (Argon2.posAt minerParams k) := by
  rw [stepWord, Argon2.pseudoRand, Argon2.prevCol_posAt (by omega) hk]
  rfl

/-- A turn of the innermost loop that is not skipped stores the next block of RFC 9106. -/
theorem body_stores (htable : TableRight table) (hjob : job < 2 ^ 32) (htwo : 2 ≤ k) (hk : k < 8192)
    (h : Running B job k s) :
    ∃ w, Spread w (Argon2.nextBlock minerParams (Argon2.filled minerParams B k) k)
      ∧ launchTurn amdMediaOps table 1 2048 s
          (job, .body 0 (BitVec.ofNat 32 (k / 2048)) (BitVec.ofNat 32 (k % 2048)))
        = ⟨storeBlock (List.finRange 32) s.memory (8192 * job + k) w,
          Function.update s.regs job
            ⟨w, 8192 * job + k + 1, min 4096 (k + 1), (s.regs job).skip⟩⟩ := by
  set x := Argon2.posAt minerParams k with hx
  set C := Argon2.filled minerParams B k with hC
  have hmax : max 2 k = k := Nat.max_eq_right htwo
  have hprev := h.prev
  rw [hmax] at hprev
  have hslice : BitVec.ofNat 32 (k / 2048) < (2 : U32) ↔ k < 4096 := by
    rw [BitVec.lt_def, BitVec.toNat_ofNat, Nat.mod_eq_of_lt (by omega)]
    show k / 2048 < 2 ↔ _
    omega
  have hentry : (0 : U32) = 0 → BitVec.ofNat 32 (k / 2048) < (2 : U32) →
      table (s.regs job).refs = refOf minerParams
        (posOf 0 (BitVec.ofNat 32 (k / 2048)) 0 (BitVec.ofNat 32 (k % 2048)))
        (addressWord minerParams
          (posOf 0 (BitVec.ofNat 32 (k / 2048)) 0 (BitVec.ofNat 32 (k % 2048)))) := by
    intro _ hlow
    have hlt := hslice.mp hlow
    rw [posOf_eq hk, h.refs, hmax, Nat.min_eq_right (by omega)]
    exact htable k htwo hlt
  have hstep := argon2StepPrecompute_spec amdMediaOps (refPosArgs htwo hk) hentry s.memory
    (8192 * job) (8192 * job + k) hprev
  have hword := stepWord_eq htwo hk C
  dsimp only at hstep
  rw [← hx] at hword
  rw [posOf_eq hk, ← hx, ← hC, hword] at hstep
  obtain ⟨hlane, hindex, hlt⟩ := ref_lt htwo hk (Argon2.pseudoRand minerParams C x)
  rw [← hx] at hlane hindex hlt
  set out := argon2StepPrecompute amdMediaOps table s.memory (8192 * job) (8192 * job + k)
    (s.regs job).prev (s.regs job).refs 1 2048 0 0 (BitVec.ofNat 32 (k / 2048))
    (BitVec.ofNat 32 (k % 2048)) with hout
  obtain ⟨hspread, hstore, hrefs⟩ := hstep
  refine ⟨out.2.1, ?_, ?_⟩
  · -- the reference lies in front of the preceding column, so it is final
    have href := h.blocks (Argon2.refColumn minerParams x 0
      (Argon2.J1 (Argon2.pseudoRand minerParams C x))) (by rw [hmax]; omega)
    rw [← hC] at href
    rw [if_pos rfl, hindex, hlane] at hspread
    rw [Argon2.nextBlock, ← hx, ← href]
    exact hspread
  · have hskip : ¬ (s.regs job).skip > 0 := by
      have hzero := h.skip
      rw [gt_iff_lt, BitVec.lt_def]
      show ¬ 0 < (s.regs job).skip.toNat
      omega
    have hpointer : out.2.2 = min 4096 (k + 1) := by
      rw [hrefs, h.refs, hmax]
      simp only [hslice, true_and]
      split <;> omega
    rw [launchTurn, oneshotTurn]
    dsimp only
    rw [base_eq hjob, if_neg hskip, h.memCurr, hmax, ← hout, ← hpointer, ← hstore]
    rfl

/-- Such a turn computes the next column. -/
theorem body_next (htable : TableRight table) (hjob : job < 2 ^ 32) (htwo : 2 ≤ k) (hk : k < 8192)
    (h : Running B job k s) :
    let s' := launchTurn amdMediaOps table 1 2048 s
      (job, .body 0 (BitVec.ofNat 32 (k / 2048)) (BitVec.ofNat 32 (k % 2048)))
    Running B job (k + 1) s' ∧ OnlyRegion job s.memory s'.memory := by
  intro s'
  obtain ⟨w, hnew, hs'⟩ := body_stores amdMediaOps htable hjob htwo hk h
  have hregs : s'.regs job = ⟨w, 8192 * job + k + 1, min 4096 (k + 1), (s.regs job).skip⟩ :=
    (congrArg (fun s : LaunchState => s.regs job) hs').trans (Function.update_self _ _ _)
  have hmemory : s'.memory = storeBlock (List.finRange 32) s.memory (8192 * job + k) w :=
    congrArg LaunchState.memory hs'
  have hmax : max 2 (k + 1) = k + 1 := Nat.max_eq_right (by omega)
  have hcol : ∀ c, Argon2.filled minerParams B (k + 1) 0 c
      = if c = k then Argon2.nextBlock minerParams (Argon2.filled minerParams B k) k
        else Argon2.filled minerParams B k 0 c := fun c => by
    rw [Argon2.filled_succ B htwo, Argon2.computeBlock_posAt rfl _ (by omega) hk]
  refine ⟨⟨⟨fun c hc => ?_⟩, ?_, ?_, ?_, ?_⟩, fun a ha => ?_⟩
  · rw [hmemory, hcol]
    by_cases hck : c = k
    · rw [if_pos hck, hck]
      exact blockAt_storeBlock (List.nodup_finRange 32) List.mem_finRange _ _ hnew
    · rw [if_neg hck, blockAt_storeBlock_of_ne (by omega)]
      exact h.blocks c (by omega)
  · rw [hregs, hmax, Nat.add_sub_cancel, hcol, if_pos rfl]
    exact hnew
  · rw [hregs, hmax]
    exact Nat.add_assoc _ _ _
  · rw [hregs, hmax]
  · rw [hregs, h.skip]
    omega
  · rw [hmemory]
    exact storeBlock_frame _ _ _ _ (by omega)

/-- A turn of the innermost loop that is skipped. -/
theorem body_skipped (hlt : k < 2) (h : Running B job k s) (pass slice offset : U32) :
    let s' := launchTurn amdMediaOps table 1 2048 s (job, .body pass slice offset)
    Running B job (k + 1) s' ∧ OnlyRegion job s.memory s'.memory := by
  intro s'
  have hskip : (s.regs job).skip > 0 := by
    have hpos := h.skip
    rw [gt_iff_lt, BitVec.lt_def]
    show 0 < (s.regs job).skip.toNat
    omega
  have hs' : s' = ⟨s.memory, Function.update s.regs job
      { s.regs job with skip := (s.regs job).skip - 1 }⟩ := by
    show launchTurn amdMediaOps table 1 2048 s _ = _
    rw [launchTurn, oneshotTurn]
    dsimp only
    rw [if_pos hskip]
  have hregs : s'.regs job = { s.regs job with skip := (s.regs job).skip - 1 } := by
    rw [hs']
    exact Function.update_self _ _ _
  have hmemory : s'.memory = s.memory := by rw [hs']
  -- the first two blocks are already there, and the registers wait at the third
  have hmax : max 2 (k + 1) = max 2 k := by omega
  have hsame : Argon2.filled minerParams B (k + 1) = Argon2.filled minerParams B k := by
    rw [Argon2.filled_of_le B (by omega), Argon2.filled_of_le B (by omega)]
  refine ⟨⟨⟨fun c hc => ?_⟩, ?_, ?_, ?_, ?_⟩, fun a _ => congrFun hmemory a⟩
  · rw [hmemory, hsame]
    exact h.blocks c (by omega)
  · rw [hregs, hmax, hsame]
    exact h.prev
  · rw [hregs, hmax]
    exact h.memCurr
  · rw [hregs, hmax]
    exact h.refs
  · rw [hregs]
    have hpos := h.skip
    rw [BitVec.toNat_sub_of_le (by rw [BitVec.le_def]; show 1 ≤ _; omega), hpos]
    show 2 - k - 1 = 2 - (k + 1)
    omega

/-- The turn before the loops. -/
theorem start_turn (hjob : job < 2 ^ 32) (h : Filled B job 0 s) :
    let s' := launchTurn amdMediaOps table 1 2048 s (job, .start)
    Running B job 0 s' ∧ OnlyRegion job s.memory s'.memory := by
  intro s'
  have hs' : s' = ⟨s.memory, Function.update s.regs job
      ⟨loadBlock s.memory (8192 * job + 1), 8192 * job + 2, 2, 2⟩⟩ := by
    show launchTurn amdMediaOps table 1 2048 s _ = _
    rw [launchTurn, oneshotTurn]
    dsimp only
    rw [base_eq hjob]
    rfl
  have hregs : s'.regs job = ⟨loadBlock s.memory (8192 * job + 1), 8192 * job + 2, 2, 2⟩ := by
    rw [hs']
    exact Function.update_self _ _ _
  have hmemory : s'.memory = s.memory := by rw [hs']
  refine ⟨⟨⟨fun c hc => ?_⟩, ?_, ?_, ?_, ?_⟩, fun a _ => congrFun hmemory a⟩
  · rw [hmemory]
    exact h.blocks c hc
  · rw [hregs]
    have hblock := h.blocks 1 (by omega)
    show Spread (loadBlock s.memory (8192 * job + 1)) (Argon2.filled minerParams B 0 0 1)
    rw [← hblock]
    exact loadBlock_spread s.memory (8192 * job + 1)
  · rw [hregs]
    rfl
  · rw [hregs]
    rfl
  · rw [hregs]
    rfl

/-- The turn after the loops. -/
theorem passEnd_turn (h : Running B job 8192 s) :
    let s' := launchTurn amdMediaOps table 1 2048 s (job, .passEnd)
    Filled B job 8192 s' ∧ OnlyRegion job s.memory s'.memory :=
  ⟨⟨h.blocks⟩, fun _ _ => rfl⟩

/-! ### A launch -/

theorem oneshotTurns_eq : oneshotTurns 1 2048
    = Turn.start :: ((List.range (4 * 2048)).map fun k =>
        Turn.body 0 (BitVec.ofNat 32 (k / 2048)) (BitVec.ofNat 32 (k % 2048)))
          ++ [Turn.passEnd] := by
  have hpasses : (1 : U32).toNat = 1 := rfl
  have hblocks : (2048 : U32).toNat = 2048 := rfl
  rw [oneshotTurns, hpasses, hblocks, Loops.range_mul, List.map_flatMap, List.range_one,
    List.flatMap_singleton]
  have hrow : ∀ slice, (List.range 2048).map (fun offset => Turn.body (BitVec.ofNat 32 0)
        (BitVec.ofNat 32 slice) (BitVec.ofNat 32 offset))
      = ((List.range 2048).map (slice * 2048 + ·)).map fun k =>
        Turn.body 0 (BitVec.ofNat 32 (k / 2048)) (BitVec.ofNat 32 (k % 2048)) := by
    intro slice
    rw [List.map_map]
    apply List.map_congr_left
    intro offset hoffset
    have hlt := List.mem_range.mp hoffset
    have hdiv : (slice * 2048 + offset) / 2048 = slice := by omega
    have hmod : (slice * 2048 + offset) % 2048 = offset := by omega
    show _ = Turn.body 0 (BitVec.ofNat 32 ((slice * 2048 + offset) / 2048))
      (BitVec.ofNat 32 ((slice * 2048 + offset) % 2048))
    rw [hdiv, hmod]
    rfl
  rw [List.cons_append]
  exact congrArg (fun f => Turn.start :: ((List.range 4).flatMap f ++ [Turn.passEnd])) (funext hrow)

theorem length_oneshotTurns : (oneshotTurns 1 2048).length = 8194 := by
  rw [oneshotTurns_eq, List.length_append, List.length_cons, List.length_map, List.length_range]
  rfl

/-- Which turn comes after `n` turns. -/
theorem oneshotTurns_getElem? {n : ℕ} {t : Turn} (h : (oneshotTurns 1 2048)[n]? = some t) :
    (n = 0 ∧ t = .start)
      ∨ (∃ k < 8192, n = k + 1
        ∧ t = .body 0 (BitVec.ofNat 32 (k / 2048)) (BitVec.ofNat 32 (k % 2048)))
      ∨ (n = 8193 ∧ t = .passEnd) := by
  have hlen := (List.getElem?_eq_some_iff.mp h).1
  rw [length_oneshotTurns] at hlen
  rw [oneshotTurns_eq, List.cons_append] at h
  cases n with
  | zero => exact Or.inl ⟨rfl, (Option.some.inj h).symm⟩
  | succ k =>
    rw [List.getElem?_cons_succ] at h
    by_cases hk : k < 8192
    · rw [List.getElem?_append_left (by rwa [List.length_map, List.length_range]),
        List.getElem?_map, List.getElem?_range hk] at h
      exact Or.inr (Or.inl ⟨k, hk, rfl, (Option.some.inj h).symm⟩)
    · have hlast : k = 8192 := by omega
      subst hlast
      rw [List.getElem?_append_right (by rw [List.length_map, List.length_range]),
        List.length_map, List.length_range] at h
      exact Or.inr (Or.inr ⟨rfl, (Option.some.inj h).symm⟩)

/-- Every turn takes its job one step further and changes nothing outside its region. -/
theorem launchTurn_next (htable : TableRight table) {batchSize : ℕ} (hbatch : batchSize ≤ 2 ^ 32)
    {n : ℕ} {t : Turn} (ht : (launchProgram 1 2048 batchSize job)[n]? = some t)
    (h : JobFilled B job n s) :
    let s' := launchTurn amdMediaOps table 1 2048 s (job, t)
    JobFilled B job (n + 1) s' ∧ OnlyRegion job s.memory s'.memory := by
  have hjob : job < batchSize := by
    by_contra hge
    rw [launchProgram, if_neg hge] at ht
    cases ht
  rw [launchProgram, if_pos hjob] at ht
  rcases oneshotTurns_getElem? ht with ⟨rfl, rfl⟩ | ⟨k, hk, rfl, rfl⟩ | ⟨rfl, rfl⟩
  · exact start_turn amdMediaOps (by omega) h
  · rw [JobFilled, if_pos (by omega)] at h
    intro s'
    rw [JobFilled, if_pos (by omega)]
    by_cases htwo : 2 ≤ k
    · exact body_next amdMediaOps htable (by omega) htwo hk h
    · exact body_skipped amdMediaOps (by omega) h _ _ _
  · exact passEnd_turn amdMediaOps h

end

section

variable (amdMediaOps : Bool) {table : Buffer Ref} {batchSize : ℕ}

/-- The table that the warps of `argon2_precompute_kernel` leave. -/
def precomputeTable (amdMediaOps : Bool) (warps : List ℕ) (refs : Buffer Ref) : Buffer Ref :=
  warps.foldl (fun refs blockId =>
    argon2PrecomputeKernel amdMediaOps 1 1 2048 refs (BitVec.ofNat 32 blockId)) refs

theorem tableArgs : TableArgs 1 1 2048 minerParams where
  passes_eq := rfl
  lanes_eq := rfl
  segLen_eq := rfl
  two_le := by decide
  bounded := by decide

theorem precomputeTable_right {warps : List ℕ} (hwarps : warps.Perm (List.range 32))
    (refs : Buffer Ref) : TableRight (precomputeTable amdMediaOps warps refs) := by
  intro c htwo hc
  have hin : InTable minerParams (Argon2.posAt minerParams c) :=
    { valid := Argon2.posAt_valid (by decide) htwo (show c < 4 * 2048 by omega)
      pass_eq := rfl
      slice_lt := by
        show c / 2048 < 2
        omega
      lane_lt := Nat.zero_lt_one }
  have hplace : refPlace minerParams (Argon2.posAt minerParams c) = c := by
    show (2 * 0 + c / 2048) * 2048 + c % 2048 = c
    omega
  have hright := referenceTable_right amdMediaOps tableArgs hin hwarps refs
  rwa [hplace] at hright

/-- Every job, at any point of a launch, whatever the order of the turns. -/
theorem launch_fills (htable : TableRight table) (hbatch : batchSize ≤ 2 ^ 32)
    (run : Loops.Interleaving (launchProgram 1 2048 batchSize)) {B : ℕ → Argon2.Memory}
    {s : LaunchState} (hs : ∀ job, Filled (B job) job 0 s) {before after : List (ℕ × Turn)}
    (h : run.order = before ++ after) (job : ℕ) :
    JobFilled (B job) job (Loops.turnsOf job before).length
      (before.foldl (launchTurn amdMediaOps table 1 2048) s) := by
  refine run.foldl_inv (fun job n s => JobFilled (B job) job n s) ?_ hs h job
  intro s job n t ht hjob
  obtain ⟨hnext, honly⟩ := launchTurn_next amdMediaOps htable hbatch ht hjob
  refine ⟨hnext, fun j hj m hm => hm.congr (fun c hc => honly.blockAt_of_ne hj hc) ?_⟩
  exact Function.update_of_ne hj _ _

/-- After a launch the region of every job is filled. -/
theorem launch_done (htable : TableRight table) (hbatch : batchSize ≤ 2 ^ 32)
    (run : Loops.Interleaving (launchProgram 1 2048 batchSize)) (s : LaunchState) {job : ℕ}
    (hjob : job < batchSize) {B : Argon2.Memory} (hfirst : B 0 0 = blockAt s.memory (8192 * job))
    (hsecond : B 0 1 = blockAt s.memory (8192 * job + 1)) {c : ℕ} (hc : c < 8192) :
    blockAt (run.order.foldl (launchTurn amdMediaOps table 1 2048) s).memory (8192 * job + c)
      = Argon2.fill minerParams B 0 c := by
  -- the other jobs start from whatever their regions hold
  set start : ℕ → Argon2.Memory :=
    Function.update (fun j _ c => blockAt s.memory (8192 * j + c)) job B with hstart
  have hown : start job = B := Function.update_self _ _ _
  have hs : ∀ j, Filled (start j) j 0 s := by
    refine fun j => ⟨fun c hc => ?_⟩
    rw [Argon2.filled_of_le _ (by omega)]
    by_cases hj : j = job
    · rw [hj, hown]
      rcases (show c = 0 ∨ c = 1 by omega) with rfl | rfl
      · exact hfirst.symm
      · exact hsecond.symm
    · rw [hstart, Function.update_of_ne hj]
  have hfilled := launch_fills amdMediaOps htable hbatch run hs
    (List.append_nil run.order).symm job
  rw [run.own, launchProgram, if_pos hjob, length_oneshotTurns, hown] at hfilled
  have hdone : Filled B job 8192 _ := hfilled
  rw [Argon2.fill_eq rfl rfl (by decide)]
  exact hdone.blocks c (by omega)

/-- No turn touches the region of another job. -/
theorem launch_onlyRegion (htable : TableRight table) (hbatch : batchSize ≤ 2 ^ 32)
    (run : Loops.Interleaving (launchProgram 1 2048 batchSize)) (s : LaunchState)
    {before after : List (ℕ × Turn)} {job : ℕ} {t : Turn}
    (h : run.order = before ++ (job, t) :: after) :
    OnlyRegion job (before.foldl (launchTurn amdMediaOps table 1 2048) s).memory
      ((before ++ [(job, t)]).foldl (launchTurn amdMediaOps table 1 2048) s).memory := by
  have hfilled := launch_fills amdMediaOps htable hbatch run
    (B := fun job _ c => blockAt s.memory (8192 * job + c)) (fun job => ⟨fun c _ => rfl⟩) h job
  rw [List.foldl_append]
  exact (launchTurn_next amdMediaOps htable hbatch (run.getElem?_program h) hfilled).2

end

/-! ### The exported tag -/

/-- The memory as bytes. -/
def memoryBytes (memory : Buffer U64) : Buffer Byte := fun a => leByte (memory (a / 8)) (a % 8)

/-- `velkar_export_stage4` for one job. -/
def velkarExportStage4 (uninit memory jobInputs : Buffer Byte)
    (memoryPerJob inputPerJob job : U64) (stage4Out : Buffer Byte) (nonceOut : Buffer U64) :
    Buffer Byte × Buffer U64 :=
  let input := (job * inputPerJob).toNat
  let lastBlock := (job * memoryPerJob).toNat + memoryPerJob.toNat - 1024
  let out := (job * 32).toNat
  let stage4 := blake2bHash32PrefixBlockGlobal uninit uninit fun i => memory (lastBlock + i)
  (writeAt stage4Out out 32 fun i => stage4 i,
    Function.update nonceOut job.toNat (load64Le jobInputs (input + 88)))

theorem bytesAt_memoryBytes (memory : Buffer U64) (n : ℕ) :
    bytesAt (memoryBytes memory) (1024 * n) 1024 = Argon2.blockBytes (blockAt memory n) := by
  apply List.ext_getElem
  · rw [length_bytesAt, Argon2.blockBytes, Vector.length_toList]
  · intro i h₁ h₂
    rw [length_bytesAt] at h₁
    have hword : (1024 * n + i) / 8 = 128 * n + i / 8 := by omega
    have hbyte : (1024 * n + i) % 8 = i % 8 := by omega
    simp only [bytesAt, memoryBytes, List.getElem_map, List.getElem_range, Argon2.blockBytes,
      Vector.getElem_toList, getElem_bytesOfWords, blockAt, Vector.getElem_ofFn, hword, hbyte]

/-- The first byte of the region of a job. -/
theorem region_eq {job : ℕ} (hjob : job < 2 ^ 32) :
    (BitVec.ofNat 64 job * BitVec.ofNat 64 memoryPerJobBytes).toNat = 1024 * (8192 * job) := by
  have hnumber : (BitVec.ofNat 64 job).toNat = job := by
    rw [BitVec.toNat_ofNat, Nat.mod_eq_of_lt (by omega)]
  have hbytes : (BitVec.ofNat 64 memoryPerJobBytes).toNat = 8388608 := rfl
  have hlt : (BitVec.ofNat 64 job).toNat * (BitVec.ofNat 64 memoryPerJobBytes).toNat < 2 ^ 64 := by
    rw [hnumber, hbytes]
    omega
  rw [BitVec.toNat_mul_of_lt hlt, hnumber, hbytes]
  omega

/-- The digest of a job, and what the export of a job leaves alone. -/
theorem velkarExportStage4_spec (uninit jobInputs stage4Out : Buffer Byte) (memory : Buffer U64)
    (nonceOut : Buffer U64) (inputPerJob : U64) (job : ℕ) (hjob : job < 2 ^ 32) :
    let out := (velkarExportStage4 uninit (memoryBytes memory) jobInputs
      (BitVec.ofNat 64 memoryPerJobBytes) inputPerJob (BitVec.ofNat 64 job) stage4Out nonceOut).1
    bytesAt out (32 * job) 32 = Blake2b.hash 32 []
        (Argon2.le32 32 ++ Argon2.blockBytes (blockAt memory (8192 * job + 8191)))
      ∧ ∀ j, j ≠ job → bytesAt out (32 * j) 32 = bytesAt stage4Out (32 * j) 32 := by
  intro out
  have hnumber : (BitVec.ofNat 64 job).toNat = job := by
    rw [BitVec.toNat_ofNat, Nat.mod_eq_of_lt (by omega)]
  have hplace : (BitVec.ofNat 64 job * 32).toNat = 32 * job := by
    have hlt : (BitVec.ofNat 64 job).toNat * (32 : U64).toNat < 2 ^ 64 := by
      rw [hnumber]
      show job * 32 < 2 ^ 64
      omega
    rw [BitVec.toNat_mul_of_lt hlt, hnumber]
    exact Nat.mul_comm job 32
  -- the last block of the job: 1024 bytes before the end of its region
  have hlast : (BitVec.ofNat 64 job * BitVec.ofNat 64 memoryPerJobBytes).toNat
      + (BitVec.ofNat 64 memoryPerJobBytes).toNat - 1024 = 1024 * (8192 * job + 8191) := by
    rw [region_eq hjob]
    show 1024 * (8192 * job) + 8388608 - 1024 = _
    omega
  have hout : out = writeAt stage4Out (32 * job) 32 fun i =>
      blake2bHash32PrefixBlockGlobal uninit uninit
        (fun i => memoryBytes memory (1024 * (8192 * job + 8191) + i)) i := by
    show (velkarExportStage4 _ _ _ _ _ _ _ _).1 = _
    rw [velkarExportStage4]
    dsimp only
    rw [hplace, hlast]
  rw [hout]
  constructor
  · have hblock : bytesAt (fun i => memoryBytes memory (1024 * (8192 * job + 8191) + i)) 0 1024
        = bytesAt (memoryBytes memory) (1024 * (8192 * job + 8191)) 1024 := by
      apply bytesAt_congr
      intro i _
      rw [Nat.zero_add]
    rw [bytesAt_writeAt, map_eq_bytesAt, bytesAt_blake2bHash32PrefixBlockGlobal, hblock,
      bytesAt_memoryBytes]
  · intro j hj
    exact bytesAt_writeAt_of_disjoint (by omega)

/-- The exports of a batch, in any order. -/
theorem exports_right (uninit : ℕ → Buffer Byte) (jobInputs stage4Out : Buffer Byte)
    (memory : Buffer U64) (nonceOut : Buffer U64) (inputPerJob : U64) {batchSize : ℕ}
    (hbatch : batchSize ≤ 2 ^ 32) {jobs : List ℕ} (hjobs : jobs.Perm (List.range batchSize))
    {job : ℕ} (hjob : job < batchSize) :
    bytesAt (jobs.foldl (fun out job => velkarExportStage4 (uninit job) (memoryBytes memory)
        jobInputs (BitVec.ofNat 64 memoryPerJobBytes) inputPerJob (BitVec.ofNat 64 job) out.1 out.2)
        (stage4Out, nonceOut)).1 (32 * job) 32
      = Blake2b.hash 32 []
          (Argon2.le32 32 ++ Argon2.blockBytes (blockAt memory (8192 * job + 8191))) := by
  generalize hdigest : Blake2b.hash 32 []
    (Argon2.le32 32 ++ Argon2.blockBytes (blockAt memory (8192 * job + 8191))) = digest
  refine Loops.foldl_reach
    (P := fun out : Buffer Byte × Buffer U64 => bytesAt out.1 (32 * job) 32 = digest)
    (fun out j hj hout => ?_) (hjobs.mem_iff.mpr (List.mem_range.mpr hjob)) (fun out => ?_)
    (stage4Out, nonceOut)
  · have hj' := List.mem_range.mp (hjobs.mem_iff.mp hj)
    have hspec := velkarExportStage4_spec (uninit j) jobInputs out.1 memory out.2 inputPerJob
      j (by omega)
    by_cases hsame : job = j
    · rw [← hdigest, hsame]
      exact hspec.1
    · exact (hspec.2 job hsame).trans hout
  · rw [← hdigest]
    exact (velkarExportStage4_spec (uninit job) jobInputs out.1 memory out.2 inputPerJob
      job (by omega)).1

/-- With one lane the tag is a digest of the last block. -/
theorem tag_eq (B : Argon2.Memory) : Argon2.tag minerParams 32 B
    = Blake2b.hash 32 [] (Argon2.le32 32 ++ Argon2.blockBytes (B 0 8191)) := by
  have hlanes : List.range minerParams.lanes = [0] := rfl
  rw [Argon2.tag, hlanes, List.foldl_cons, List.foldl_nil, xorBlock_zeroBlock, Argon2.hPrime,
    if_pos (by omega)]
  rfl

/-! ### Table, fill and tag -/

/-- The table, filled by its warps in any order, makes every job of a batch fill its own region
as RFC 9106 does from the two blocks it is given, whatever the order of the turns; the exported
digest is the tag.  `job_id` counts in 32 bits. -/
theorem memory_fill_is_argon2id (amdMediaOps : Bool) (refs : Buffer Ref) {warps : List ℕ}
    (hwarps : warps.Perm (List.range 32)) {batchSize : ℕ} (hbatch : batchSize ≤ 2 ^ 32)
    (run : Loops.Interleaving (launchProgram 1 2048 batchSize)) (s : LaunchState) :
    let turn := launchTurn amdMediaOps (precomputeTable amdMediaOps warps refs) 1 2048
    let memory := (run.order.foldl turn s).memory
    (∀ before after job t, run.order = before ++ (job, t) :: after →
        OnlyRegion job (before.foldl turn s).memory ((before ++ [(job, t)]).foldl turn s).memory)
      ∧ ∀ job < batchSize, ∀ B : Argon2.Memory, B 0 0 = blockAt s.memory (8192 * job) →
        B 0 1 = blockAt s.memory (8192 * job + 1) →
        (∀ c < 8192, blockAt memory (8192 * job + c) = Argon2.fill minerParams B 0 c)
        ∧ ∀ (uninit : ℕ → Buffer Byte) (jobInputs stage4Out : Buffer Byte) (nonceOut : Buffer U64)
            (inputPerJob : U64) (jobs : List ℕ), jobs.Perm (List.range batchSize) →
          let out := jobs.foldl (fun out job => velkarExportStage4 (uninit job) (memoryBytes memory)
            jobInputs (BitVec.ofNat 64 memoryPerJobBytes) inputPerJob (BitVec.ofNat 64 job) out.1
            out.2) (stage4Out, nonceOut)
          bytesAt out.1 (32 * job) 32 = Blake2b.hash 32 []
              (Argon2.le32 32 ++ Argon2.blockBytes (blockAt memory (8192 * job + 8191)))
            ∧ bytesAt out.1 (32 * job) 32 = Argon2.tag minerParams 32 (Argon2.fill minerParams B)
            ∧ ∀ password salt, B = Argon2.firstColumns (minerPreHash password salt) →
              bytesAt out.1 (32 * job) 32
                = Argon2.argon2id minerParams 32 ARGON_MEMORY_KIB password salt [] [] := by
  intro turn memory
  have htable := precomputeTable_right amdMediaOps hwarps refs
  refine ⟨fun before after job t h => launch_onlyRegion amdMediaOps htable hbatch run s h, ?_⟩
  intro job hjob B hfirst hsecond
  have hblocks : ∀ c < 8192, blockAt memory (8192 * job + c) = Argon2.fill minerParams B 0 c :=
    fun c hc => launch_done amdMediaOps htable hbatch run s hjob hfirst hsecond hc
  refine ⟨hblocks, ?_⟩
  intro uninit jobInputs stage4Out nonceOut inputPerJob jobs hjobs out
  have hout :=
    exports_right uninit jobInputs stage4Out memory nonceOut inputPerJob hbatch hjobs hjob
  -- the tag is the hash of the last block, as there is one lane
  have htag : bytesAt out.1 (32 * job) 32
      = Argon2.tag minerParams 32 (Argon2.fill minerParams B) := by
    rw [tag_eq, ← hblocks 8191 (by omega)]
    exact hout
  refine ⟨hout, htag, fun password salt hB => ?_⟩
  rw [htag, hB]
  rfl

theorem turnsOf_alternate (l : List Turn) (job : ℕ) :
    Loops.turnsOf job (l.flatMap fun t => [(0, t), (1, t)]) = if job < 2 then l else [] := by
  induction l with
  | nil => simp [Loops.turnsOf]
  | cons t l ih =>
    rw [List.flatMap_cons, Loops.turnsOf_append, ih]
    rcases (show job = 0 ∨ job = 1 ∨ 2 ≤ job by omega) with rfl | rfl | hjob
    · rfl
    · rfl
    · simp [Loops.turnsOf, show ¬ job < 2 by omega, show ¬ 0 = job by omega,
        show ¬ 1 = job by omega]

/-- Two jobs that take turns. -/
def twoJobs : Loops.Interleaving (launchProgram 1 2048 2) :=
  ⟨_, turnsOf_alternate (oneshotTurns 1 2048)⟩

/-- The last block of the second of two jobs, with the warps of the table in reverse. -/
theorem memory_fill_is_argon2id_second :
    blockAt (twoJobs.order.foldl
        (launchTurn false (precomputeTable false (List.range 32).reverse fun _ => ⟨0, 0⟩) 1 2048)
        ⟨fun a => BitVec.ofNat 64 a, fun _ => ⟨fun _ => ⟨0, 0, 0, 0⟩, 0, 0, 0⟩⟩).memory
        (8192 * 1 + 8191)
      = Argon2.fill minerParams (fun _ c => blockAt (fun a => BitVec.ofNat 64 a) (8192 * 1 + c))
          0 8191 :=
  ((memory_fill_is_argon2id false (fun _ => ⟨0, 0⟩) (List.reverse_perm (List.range 32))
    (by omega) twoJobs ⟨fun a => BitVec.ofNat 64 a, fun _ => ⟨fun _ => ⟨0, 0, 0, 0⟩, 0, 0, 0⟩⟩).2 1
    (by omega) (fun _ c => blockAt (fun a => BitVec.ofNat 64 a) (8192 * 1 + c)) rfl rfl).1 8191
    (by omega)

/-! ### From password and salt -/

/-- The memory as words. -/
def memoryWords (memory : Buffer Byte) : Buffer U64 := fun a => ofLe 8 fun b => memory (8 * a + b)

theorem blockAt_memoryWords {memory : Buffer Byte} {n : ℕ} {data : List Byte}
    (h : bytesAt memory (1024 * n) 1024 = data) :
    blockAt (memoryWords memory) n
      = Vector.ofFn fun w => ofLe 8 fun b => data.getD (8 * w.val + b) 0 := by
  apply Vector.ext
  intro w hw
  rw [blockAt, Vector.getElem_ofFn, Vector.getElem_ofFn, memoryWords]
  apply ofLe_congr
  intro b hb
  rw [← h, getD_bytesAt, if_pos (show 8 * w + b < 1024 by omega)]
  exact congrArg memory (show 8 * (128 * n + w) + b = 1024 * n + (8 * w + b) by omega)

/-- The first two blocks of every job, the jobs in any order. -/
theorem firstBlocks_right (uninit : ℕ → Buffer Byte) (memory jobInputs : Buffer Byte)
    (inputPerJob : U64) {batchSize : ℕ} (hbatch : batchSize ≤ 2 ^ 32) {jobs : List ℕ}
    (hjobs : jobs.Perm (List.range batchSize)) {job : ℕ} (hjob : job < batchSize) :
    bytesAt (jobs.foldl (fun memory job => velkarInitFirstBlocks (uninit job) memory jobInputs
        (BitVec.ofNat 64 memoryPerJobBytes) inputPerJob (BitVec.ofNat 64 job)) memory)
        (1024 * (8192 * job)) 2048
      = firstBlocks (bytesAt jobInputs (BitVec.ofNat 64 job * inputPerJob).toNat 72)
          (bytesAt jobInputs ((BitVec.ofNat 64 job * inputPerJob).toNat + 72) 16) := by
  generalize hdata : firstBlocks (bytesAt jobInputs (BitVec.ofNat 64 job * inputPerJob).toNat 72)
    (bytesAt jobInputs ((BitVec.ofNat 64 job * inputPerJob).toNat + 72) 16) = data
  refine Loops.foldl_reach
    (P := fun memory : Buffer Byte => bytesAt memory (1024 * (8192 * job)) 2048 = data)
    (fun memory j hj hmemory => ?_) (hjobs.mem_iff.mpr (List.mem_range.mpr hjob)) (fun memory => ?_)
    memory
  · have hj' := List.mem_range.mp (hjobs.mem_iff.mp hj)
    obtain ⟨hblocks, hframe⟩ := velkarInitFirstBlocks_spec (uninit j) memory jobInputs
      (BitVec.ofNat 64 memoryPerJobBytes) inputPerJob (BitVec.ofNat 64 j)
    rw [region_eq (by omega)] at hblocks hframe
    by_cases hsame : job = j
    · rw [← hdata, hsame]
      exact hblocks
    · refine (bytesAt_congr fun i hi => hframe _ ?_).trans hmemory
      omega
  · have hspec := (velkarInitFirstBlocks_spec (uninit job) memory jobInputs
      (BitVec.ofNat 64 memoryPerJobBytes) inputPerJob (BitVec.ofNat 64 job)).1
    rwa [region_eq (by omega), hdata] at hspec

/-- `init`, fill and export of a batch: each job exports Argon2id of its password and its salt. -/
theorem stage4_is_argon2id (amdMediaOps : Bool) (refs : Buffer Ref) {warps : List ℕ}
    (hwarps : warps.Perm (List.range 32)) {batchSize : ℕ} (hbatch : batchSize ≤ 2 ^ 32)
    (run : Loops.Interleaving (launchProgram 1 2048 batchSize)) (regs : ℕ → LaneRegs)
    (uninit uninit' : ℕ → Buffer Byte) (memory jobInputs stage4Out : Buffer Byte)
    (nonceOut : Buffer U64) (inputPerJob : U64) {inits exports : List ℕ}
    (hinits : inits.Perm (List.range batchSize)) (hexports : exports.Perm (List.range batchSize))
    {job : ℕ} (hjob : job < batchSize) :
    let first := inits.foldl (fun memory job => velkarInitFirstBlocks (uninit job) memory jobInputs
      (BitVec.ofNat 64 memoryPerJobBytes) inputPerJob (BitVec.ofNat 64 job)) memory
    let filled := (run.order.foldl (launchTurn amdMediaOps
      (precomputeTable amdMediaOps warps refs) 1 2048) ⟨memoryWords first, regs⟩).memory
    let out := exports.foldl (fun out job => velkarExportStage4 (uninit' job) (memoryBytes filled)
      jobInputs (BitVec.ofNat 64 memoryPerJobBytes) inputPerJob (BitVec.ofNat 64 job) out.1 out.2)
      (stage4Out, nonceOut)
    bytesAt out.1 (32 * job) 32
      = Argon2.argon2id minerParams 32 ARGON_MEMORY_KIB
          (bytesAt jobInputs (BitVec.ofNat 64 job * inputPerJob).toNat 72)
          (bytesAt jobInputs ((BitVec.ofNat 64 job * inputPerJob).toNat + 72) 16) [] [] := by
  intro first filled out
  set password := bytesAt jobInputs (BitVec.ofNat 64 job * inputPerJob).toNat 72 with hpassword
  set salt := bytesAt jobInputs ((BitVec.ofNat 64 job * inputPerJob).toNat + 72) 16 with hsalt
  have hfirst : bytesAt first (1024 * (8192 * job)) (1024 + 1024) = firstBlocks password salt :=
    firstBlocks_right uninit memory jobInputs inputPerJob hbatch hinits hjob
  rw [bytesAt_add] at hfirst
  obtain ⟨h0, h1⟩ := List.append_inj hfirst (by rw [length_bytesAt, length_hPrime_1024])
  rw [show 1024 * (8192 * job) + 1024 = 1024 * (8192 * job + 1) by omega] at h1
  -- the blocks are read back as words of the same memory
  have hcol0 : Argon2.firstColumns (minerPreHash password salt) 0 0
      = blockAt (memoryWords first) (8192 * job) := (blockAt_memoryWords h0).symm
  have hcol1 : Argon2.firstColumns (minerPreHash password salt) 0 1
      = blockAt (memoryWords first) (8192 * job + 1) := (blockAt_memoryWords h1).symm
  have hlast : blockAt filled (8192 * job + 8191)
      = Argon2.fill minerParams (Argon2.firstColumns (minerPreHash password salt)) 0 8191 :=
    launch_done amdMediaOps (precomputeTable_right amdMediaOps hwarps refs) hbatch run
      ⟨memoryWords first, regs⟩ hjob hcol0 hcol1 (by omega)
  have hout := exports_right uninit' jobInputs stage4Out filled nonceOut inputPerJob hbatch hexports
    hjob
  rw [hlast, ← tag_eq] at hout
  exact hout

end Kernel
