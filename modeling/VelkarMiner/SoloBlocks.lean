/-
The blocks of a solo miner (`MinerManager` of `src/miner.rs`).

`found_block` sends a block if it finds the cell free, and leaves the id of its
template there; but `process_block` resets the cell while workers still hash the
templates of before.

* `solved_templates_submitted` — which calls send a block of their template;
* `one_block_per_template` — which runs send at most one block of a template;
* `race`, `reset_lets_second_block_through` — a run that loses a template, and one that
  sends two blocks of the same.
-/
import VelkarMiner.SoloMiner

open Rust

namespace Solo

variable {ι : Type}

/-- The run calls `found_block` after `pre`, and goes on with `post`. -/
def Calls (tr pre : List (Miner ι × Event ι)) (w : ι) (i : Instance State) (block : RpcBlock)
    (post : List (Miner ι × Event ι)) : Prop :=
  ∃ m taken, tr = pre ++ (m, .found w i block taken) :: post

theorem calls_concat {tr pre post : List (Miner ι × Event ι)} {m : Miner ι} {e : Event ι} {w : ι}
    {i : Instance State} {block : RpcBlock} : Calls (tr ++ [(m, e)]) pre w i block post
      ↔ (∃ taken, e = .found w i block taken) ∧ pre = tr ∧ post = []
        ∨ ∃ post', Calls tr pre w i block post' ∧ post = post' ++ [(m, e)] := by
  constructor
  · rintro ⟨m₀, taken, htr⟩
    obtain rfl | ⟨post', x, rfl⟩ := List.eq_nil_or_concat' post
    · obtain ⟨rfl, hx⟩ := List.append_inj' htr rfl
      exact Or.inl ⟨⟨taken, by simpa using congrArg Prod.snd (List.cons.inj hx).1⟩, rfl, rfl⟩
    · rw [← List.cons_append, ← List.append_assoc] at htr
      obtain ⟨rfl, hx⟩ := List.append_inj' htr rfl
      exact Or.inr ⟨post', ⟨m₀, taken, rfl⟩, by rw [hx]⟩
  · rintro (⟨⟨taken, rfl⟩, rfl, rfl⟩ | ⟨post', ⟨m₀, taken, rfl⟩, rfl⟩)
    · exact ⟨m, taken, rfl⟩
    · exact ⟨m₀, taken, by simp⟩

/-- Since the last reset of the cell no call has taken it for another template, and none for this
one is still waiting with its block. -/
def Undisturbed (tr : List (Miner ι × Event ι)) (id : U64) : Prop :=
  ∀ w id' after, Taken tr w id' after → id' ≠ UNSOLVED →
    id' = id ∧ ∃ x ∈ after, x.2.worker = some w

/-- Some call has taken the cell for the template. -/
def Granted (tr : List (Miner ι × Event ι)) (id : U64) : Prop :=
  ∃ m w i block, (m, Event.found w i block true) ∈ tr ∧ i.value.id = id

/-- Some call has taken the cell since its last reset. -/
def Occupied (tr : List (Miner ι × Event ι)) : Prop :=
  ∃ w id after, Taken tr w id after ∧ id ≠ UNSOLVED

/-! ### Submissions -/

/-- The step sends a block of the template. -/
def sends (id : U64) (x : Miner ι × Event ι) : Bool :=
  match x.2 with
  | .submit _ i _ => i.value.id == id
  | _ => false

/-- How many blocks of a template have been sent. -/
def submissions (tr : List (Miner ι × Event ι)) (id : U64) : ℕ := tr.countP (sends id)

theorem sends_iff {id : U64} {x : Miner ι × Event ι} :
    sends id x = true ↔ ∃ w i block, x.2 = .submit w i block ∧ i.value.id = id := by
  obtain ⟨m, e⟩ := x
  cases e with
  | submit w i block => simp [sends]
  | _ => simp [sends]

theorem submitted_iff {tr : List (Miner ι × Event ι)} {id : U64} :
    Submitted tr id ↔ ∃ x ∈ tr, sends id x = true := by
  simp only [sends_iff]
  constructor
  · rintro ⟨m, w, i, block, hmem, hid⟩
    exact ⟨_, hmem, w, i, block, rfl, hid⟩
  · rintro ⟨⟨m, e⟩, hmem, w, i, block, rfl, hid⟩
    exact ⟨m, w, i, block, hmem, hid⟩

theorem submitted_concat (tr : List (Miner ι × Event ι)) (m : Miner ι) (w : ι) (i : Instance State)
    (block : RpcBlock) : Submitted (tr ++ [(m, .submit w i block)]) i.value.id :=
  ⟨m, w, i, block, by simp, rfl⟩

theorem Submitted.append {tr : List (Miner ι × Event ι)} {id : U64} (h : Submitted tr id)
    (rest : List (Miner ι × Event ι)) : Submitted (tr ++ rest) id := by
  obtain ⟨m, w, i, block, hmem, hid⟩ := h
  exact ⟨m, w, i, block, List.mem_append_left rest hmem, hid⟩

/-- At most one element has a property precisely when none of them follows another. -/
theorem countP_le_one_iff {α : Type} {p : α → Bool} {xs : List α} :
    xs.countP p ≤ 1 ↔ ∀ us x vs, xs = us ++ x :: vs → p x = true → ∀ y ∈ us, ¬ p y = true := by
  constructor
  · rintro h us x vs rfl hx y hy hpy
    have hus : 0 < us.countP p := List.countP_pos_iff.mpr ⟨y, hy, hpy⟩
    rw [List.countP_append, List.countP_cons_of_pos hx] at h
    omega
  · intro h
    induction xs using List.reverseRecOn with
    | nil => exact Nat.zero_le 1
    | append_singleton xs x ih =>
      rw [List.countP_append, List.countP_singleton]
      by_cases hx : p x = true
      · have hnone : xs.countP p = 0 := List.countP_eq_zero.mpr (h xs x [] rfl hx)
        rw [hnone, if_pos hx]
      · rw [if_neg hx, Nat.add_zero]
        exact ih fun us y vs heq => h us y (vs ++ [x]) (by rw [heq]; simp)

theorem submissions_le_one_iff {tr : List (Miner ι × Event ι)} :
    (∀ id, submissions tr id ≤ 1) ↔ ∀ pre m w i block post,
      tr = pre ++ (m, .submit w i block) :: post → ¬ Submitted pre i.value.id := by
  simp only [submissions, countP_le_one_iff]
  constructor
  · intro h pre m w i block post htr hsub
    obtain ⟨y, hy, hsends⟩ := submitted_iff.mp hsub
    exact h i.value.id pre _ post htr (sends_iff.mpr ⟨w, i, block, rfl, rfl⟩) y hy hsends
  · rintro h id us ⟨m, e⟩ vs htr hsends y hy hy'
    obtain ⟨w, i, block, rfl, rfl⟩ := sends_iff.mp hsends
    exact h us m w i block vs htr (submitted_iff.mpr ⟨y, hy, hy'⟩)

/-- Two different elements with a property. -/
theorem two_le_countP {α : Type} {p : α → Bool} {xs : List α} {x y : α} (hx : x ∈ xs) (hy : y ∈ xs)
    (hne : x ≠ y) (hpx : p x = true) (hpy : p y = true) : 2 ≤ xs.countP p := by
  obtain ⟨us, vs, rfl⟩ := List.append_of_mem hx
  rw [List.countP_append, List.countP_cons_of_pos hpx]
  obtain hy | hy := List.mem_append.mp hy
  · have hpos := List.countP_pos_iff.mpr ⟨y, hy, hpy⟩
    omega
  · obtain rfl | hy := List.mem_cons.mp hy
    · exact absurd rfl hne
    · have hpos := List.countP_pos_iff.mpr ⟨y, hy, hpy⟩
      omega

/-- Of two places in a list one comes first, unless they are the same. -/
theorem places {α : Type} {us vs us' vs' : List α} {x y : α}
    (h : us ++ x :: vs = us' ++ y :: vs') : y ∈ us ∨ x ∈ us' ∨ x = y ∧ vs = vs' := by
  obtain ⟨ws, rfl, hcons⟩ | ⟨ws, rfl, hcons⟩ := List.append_eq_append_iff.mp h
  · cases ws with
    | nil =>
      obtain ⟨rfl, rfl⟩ := List.cons.inj hcons
      exact Or.inr (Or.inr ⟨rfl, rfl⟩)
    | cons z ws =>
      obtain ⟨rfl, -⟩ := List.cons.inj hcons
      exact Or.inr (Or.inl (by simp))
  · cases ws with
    | nil =>
      obtain ⟨rfl, rfl⟩ := List.cons.inj hcons
      exact Or.inr (Or.inr ⟨rfl, rfl⟩)
    | cons z ws =>
      obtain ⟨rfl, -⟩ := List.cons.inj hcons
      exact Or.inl (by simp)

variable [DecidableEq ι]

theorem mem_of_ownSteps {w : ι} {tr rest : List (Miner ι × Event ι)} {x : Miner ι × Event ι}
    (h : ownSteps w tr = x :: rest) : x ∈ tr :=
  (List.mem_filter.mp (h ▸ List.mem_cons_self : x ∈ ownSteps w tr)).1

/-! ### Solved templates -/

/-- A call sends its block, or one of the same template has been sent. -/
def Served (cfg : Config ι) (pre : List (Miner ι × Event ι)) (w : ι) (i : Instance State)
    (block : RpcBlock) (post : List (Miner ι × Event ι)) (m : Miner ι) : Prop :=
  Submitted pre i.value.id ∨ Sends cfg w i block post m

section

variable {cfg : Config ι} {pre post tr : List (Miner ι × Event ι)} {m m' : Miner ι} {w : ι}
  {i : Instance State} {block : RpcBlock} {id : U64}

theorem occupied_iff (h : (machine cfg).Run tr m) : Occupied tr ↔ m.solvedStateId ≠ UNSOLVED := by
  constructor
  · rintro ⟨w, id, after, htaken, hid⟩
    rwa [(taken_iff h hid).mpr ⟨w, after, htaken⟩]
  · intro hheld
    obtain ⟨w, after, htaken⟩ := (taken_iff h hheld).mp rfl
    exact ⟨w, _, after, htaken, hheld⟩

/-- A call that comes back without taking the cell sends nothing. -/
theorem not_sends_of_late (h : (machine cfg).Run (pre ++ (m, .found w i block false) :: post) m') :
    ¬ Sends cfg w i block post m' := by
  obtain ⟨-, m₁, hstep, hpost⟩ := h.split
  have hpc : (m₁.workers w).pc = .top := by
    cases hstep with
    | foundLate => simp
  obtain ⟨hnone, hsame⟩ | ⟨m₂, e, m₃, rest, hown, hw, hsame, hstep₂, -⟩ :=
    ownSteps_cases (w := w) hpost
  · rw [← hsame] at hpc
    rintro (⟨_, _, hown⟩ | ⟨-, _, hsubmit⟩)
    · rw [hnone] at hown
      cases hown
    · cases hsubmit with
      | submit _ _ _ hsend => simp [hsend] at hpc
  · rw [← hsame] at hpc
    rw [Sends, hown]
    rintro (⟨_, _, heq⟩ | ⟨heq, -⟩)
    · obtain ⟨rfl, rfl⟩ := Prod.mk.inj (List.cons.inj heq).1
      cases hstep₂ with
      | submit _ _ _ hsend => simp [hsend] at hpc
    · cases heq

/-- What has been taken since the last reset, by a worker that has come back, has been sent. -/
theorem submitted_of_taken {after : List (Miner ι × Event ι)} (h : (machine cfg).Run tr m)
    (hopen : ¬ Closed tr) (htaken : Taken tr w id after)
    (hback : ∃ x ∈ after, x.2.worker = some w) :
    Submitted tr id := by
  obtain ⟨before, m₀, i, block, rfl, -, rfl⟩ := htaken
  obtain ⟨m₁, rest, hown⟩ | ⟨hnone, -⟩ := sends_of_taken h hopen
  · exact ⟨m₁, w, i, block, by simp [mem_of_ownSteps hown], rfl⟩
  · obtain ⟨x, hx, hw⟩ := hback
    have hmem : x ∈ ownSteps w after := List.mem_filter.mpr ⟨hx, decide_eq_true hw⟩
    rw [hnone] at hmem
    cases hmem

end

/-- In any run whose channel stays open a call of `found_block` sends its block, or comes after one
of its template, if it is undisturbed; and one that is disturbed loses its template, unless a
block of it has been sent before. -/
theorem solved_templates_submitted (cfg : Config ι) {tr : List (Miner ι × Event ι)} {m : Miner ι}
    (h : (machine cfg).Run tr m) {pre post : List (Miner ι × Event ι)} {w : ι}
    {i : Instance State} {block : RpcBlock} (hcall : Calls tr pre w i block post) :
    (¬ Closed tr → Undisturbed pre i.value.id → Served cfg pre w i block post m)
      ∧ (¬ Submitted pre i.value.id → Served cfg pre w i block post m →
        Undisturbed pre i.value.id) := by
  obtain ⟨m₁, taken, rfl⟩ := hcall
  obtain ⟨hpre, m₂, hstep, -⟩ := h.split
  constructor
  · intro hopen halone
    cases taken with
    | true => exact Or.inr (sends_of_taken h hopen)
    | false =>
      -- the cell is held, by a call for this template that has come back
      have hheld : m₁.solvedStateId ≠ UNSOLVED := fun hfree => by
        simpa using (found_iff hstep).mpr hfree
      obtain ⟨w', id', after, htaken, hid⟩ := (occupied_iff hpre).mpr hheld
      obtain ⟨rfl, hback⟩ := halone w' id' after htaken hid
      exact Or.inl (submitted_of_taken hpre (fun hclosed => hopen (hclosed.append _)) htaken hback)
  · intro hnew hserved w' id' after htaken hid
    have hheld := (occupied_iff hpre).mp ⟨w', id', after, htaken, hid⟩
    cases taken with
    | true => exact absurd ((found_iff hstep).mp rfl) hheld
    | false => exact absurd (hserved.resolve_left hnew) (not_sends_of_late h)

/-! ### A template that is lost -/

open State

/-- The first worker finds its block and sends it, and so takes the cell that has just been
reset for the new template; the second worker finds its block and drops it. -/
theorem race :
    ∃ pre m₁ m₂, (machine raceConfig).Run
        (pre ++ [(m₁, .found 1 ⟨1, { laterState with nonce := 2 }⟩
          { sampleBlock 2 with transactions := [⟨[1]⟩] } false)]) m₂
      ∧ m₁.channelOpen = true ∧ m₁.slot.inner = some ⟨1, laterState⟩ ∧ ¬ Submitted pre 1 := by
  obtain ⟨tr, htr, hquiet⟩ := raceBoth_steps
  have h₁ := htr.step (Step.hashFound raceBoth 0 ⟨0, sampleState⟩ (sampleBlock 2) rfl rfl rfl
    generateBlockIfPow_sample)
  have h₂ := (h₁.step (Step.foundTaken _ 0 ⟨0, { sampleState with nonce := 2 }⟩ (sampleBlock 2)
    rfl rfl rfl)).step (Step.submit _ 0 _ _ rfl rfl rfl)
  have h₃ := h₂.step (Step.hashFound _ 1 ⟨1, laterState⟩
    { sampleBlock 2 with transactions := [⟨[1]⟩] } rfl rfl rfl generateBlockIfPow_later)
  have h₄ := h₃.step (Step.foundLate _ 1 ⟨1, { laterState with nonce := 2 }⟩
    { sampleBlock 2 with transactions := [⟨[1]⟩] } rfl rfl (by decide))
  refine ⟨_, _, _, ⟨raceStart, ⟨rfl, rfl, rfl, rfl, rfl, rfl, fun _ => rfl⟩, h₄⟩, rfl, rfl, ?_⟩
  rintro ⟨m, w, i, block, hmem, hid⟩
  simp only [List.mem_append, List.mem_singleton, Prod.mk.injEq, Event.submit.injEq,
    reduceCtorEq, and_false, or_false] at hmem
  obtain hmem | hmem := hmem
  · exact hquiet _ hmem
  · obtain ⟨-, -, rfl, -⟩ := hmem
    exact absurd hid (by decide)

theorem stale_worker_drops_block :
    ¬ ∀ (cfg : Config (Fin 2)) (tr : List (Miner (Fin 2) × Event (Fin 2))) (m : Miner (Fin 2)),
      (machine cfg).Run tr m → ∀ pre w i block post, Calls tr pre w i block post →
        Served cfg pre w i block post m := by
  intro hserved
  obtain ⟨pre, m₁, m₂, hrun, -, -, hlost⟩ := race
  obtain hsub | hsends := hserved _ _ _ hrun pre 1 _ _ [] ⟨m₁, false, rfl⟩
  · exact hlost hsub
  · exact not_sends_of_late hrun hsends

/-- Both workers hash the first template. -/
def bothFetched : Miner (Fin 2) :=
  ((raceStart.deliver sampleState).fetch 0 ⟨0, sampleState⟩).fetch 1 ⟨0, sampleState⟩

theorem bothFetched_steps :
    ∃ tr, (machine raceConfig).Steps raceStart tr bothFetched ∧ ∀ x ∈ tr, x.2.Quiet := by
  obtain ⟨tr₁, s₁, h₁, -, hq₁⟩ := deliver_steps raceConfig (m := raceStart) rfl
    (mem_new.mpr ⟨_, sampleState_builtFrom⟩)
  obtain ⟨tr₂, h₂, hq₂⟩ := fetch_steps raceConfig (m := raceStart.deliver sampleState)
    (w := 0) (i := ⟨0, sampleState⟩) rfl rfl rfl (by decide) (by decide)
  obtain ⟨tr₃, h₃, hq₃⟩ := fetch_steps raceConfig
    (m := (raceStart.deliver sampleState).fetch 0 ⟨0, sampleState⟩)
    (w := 1) (i := ⟨0, sampleState⟩) rfl rfl rfl (by decide) (by decide)
  have hq₁₂ := List.forall_mem_append.mpr ⟨hq₁, hq₂⟩
  exact ⟨_, (h₁.append h₂).append h₃, List.forall_mem_append.mpr ⟨hq₁₂, hq₃⟩⟩

/-- The sample at the nonce that solves it. -/
def solvedSample : Instance State := ⟨0, { sampleState with nonce := 2 }⟩

/-- After a quiet start the first worker finds its block and sends it, and the second one finds
a block of the same template. -/
def lateTrace (tr : List (Miner (Fin 2) × Event (Fin 2))) (m₁ m₂ m₃ m₄ : Miner (Fin 2)) :
    List (Miner (Fin 2) × Event (Fin 2)) :=
  tr ++ [(m₁, .hash 0 ⟨0, sampleState⟩ 2)] ++ [(m₂, .found 0 solvedSample (sampleBlock 2) true)]
    ++ [(m₃, .submit 0 solvedSample (sampleBlock 2))] ++ [(m₄, .hash 1 ⟨0, sampleState⟩ 2)]

theorem late_run :
    ∃ tr m₁ m₂ m₃ m₄ m₅ m₆, (∀ x ∈ tr, x.2.Quiet)
      ∧ (machine raceConfig).Run
        (lateTrace tr m₁ m₂ m₃ m₄ ++ [(m₅, .found 1 solvedSample (sampleBlock 2) false)]) m₆ := by
  obtain ⟨tr, htr, hquiet⟩ := bothFetched_steps
  have h₁ := htr.step (Step.hashFound bothFetched 0 ⟨0, sampleState⟩ (sampleBlock 2) rfl rfl rfl
    generateBlockIfPow_sample)
  have h₂ := (h₁.step (Step.foundTaken _ 0 solvedSample (sampleBlock 2) rfl rfl rfl)).step
    (Step.submit _ 0 _ _ rfl rfl rfl)
  have h₃ := h₂.step (Step.hashFound _ 1 ⟨0, sampleState⟩ (sampleBlock 2) rfl rfl rfl
    generateBlockIfPow_sample)
  have h₄ := h₃.step (Step.foundLate _ 1 solvedSample (sampleBlock 2) rfl rfl (by decide))
  exact ⟨tr, _, _, _, _, _, _, hquiet,
    ⟨raceStart, ⟨rfl, rfl, rfl, rfl, rfl, rfl, fun _ => rfl⟩, h₄⟩⟩

omit [DecidableEq ι] in
theorem not_taken_of_quiet {tr after : List (Miner ι × Event ι)} {w : ι} {id : U64}
    (hquiet : ∀ x ∈ tr, x.2.Quiet) : ¬ Taken tr w id after := by
  rintro ⟨before, m, i, block, rfl, -⟩
  exact hquiet (m, .found w i block true) (by simp)

theorem occupied_lateTrace (tr : List (Miner (Fin 2) × Event (Fin 2)))
    (m₁ m₂ m₃ m₄ : Miner (Fin 2)) :
    Occupied (lateTrace tr m₁ m₂ m₃ m₄) :=
  ⟨0, 0, [(m₃, .submit 0 solvedSample (sampleBlock 2)), (m₄, .hash 1 ⟨0, sampleState⟩ 2)],
    ⟨tr ++ [(m₁, .hash 0 ⟨0, sampleState⟩ 2)], m₂, solvedSample, sampleBlock 2,
      by simp [lateTrace], by simp, rfl⟩, by decide⟩

section

variable {tr : List (Miner (Fin 2) × Event (Fin 2))} (hquiet : ∀ x ∈ tr, x.2.Quiet)
  (m₁ m₂ m₃ m₄ m₅ : Miner (Fin 2))

include hquiet

theorem lateTrace_open :
    ¬ Closed (lateTrace tr m₁ m₂ m₃ m₄ ++ [(m₅, .found 1 solvedSample (sampleBlock 2) false)]) := by
  rintro ⟨m, hmem⟩
  simp only [lateTrace, List.mem_append, List.mem_singleton, Prod.mk.injEq, reduceCtorEq, and_false,
    or_false] at hmem
  exact hquiet _ hmem

/-- In it the cell is taken once. -/
theorem taken_lateTrace {w : Fin 2} {id : U64} {after : List (Miner (Fin 2) × Event (Fin 2))}
    (h : Taken (lateTrace tr m₁ m₂ m₃ m₄) w id after) :
    w = 0 ∧ id = 0 ∧ after = [(m₃, .submit 0 solvedSample (sampleBlock 2))]
      ++ [(m₄, .hash 1 ⟨0, sampleState⟩ 2)] := by
  simp only [lateTrace, taken_concat] at h
  obtain ⟨_, _, he, -⟩ | ⟨-, _, ⟨_, _, he, -⟩ | ⟨-, _, hfound, rfl⟩, rfl⟩ := h
  · cases he
  · cases he
  obtain ⟨i, block, he, rfl, rfl⟩ | ⟨-, _, ⟨_, _, he, -⟩ | ⟨-, _, hnone, -⟩, -⟩ := hfound
  · cases he
    exact ⟨rfl, rfl, rfl⟩
  · cases he
  · exact absurd hnone (not_taken_of_quiet hquiet)

end

/-- The late call is undisturbed: the block of its template has been sent. -/
theorem late_call_served :
    ∃ tr m pre, (machine raceConfig).Run tr m ∧ Calls tr pre 1 solvedSample (sampleBlock 2) []
      ∧ Undisturbed pre 0 ∧ Served raceConfig pre 1 solvedSample (sampleBlock 2) [] m := by
  obtain ⟨tr, m₁, m₂, m₃, m₄, m₅, m₆, hquiet, hrun⟩ := late_run
  have halone : Undisturbed (lateTrace tr m₁ m₂ m₃ m₄) 0 := by
    intro w id after htaken _
    obtain ⟨rfl, rfl, rfl⟩ := taken_lateTrace hquiet m₁ m₂ m₃ m₄ htaken
    exact ⟨rfl, _, .head _, rfl⟩
  exact ⟨_, m₆, _, hrun, ⟨m₅, false, rfl⟩, halone,
    (solved_templates_submitted raceConfig hrun ⟨m₅, false, rfl⟩).1
      (lateTrace_open hquiet m₁ m₂ m₃ m₄ m₅) halone⟩

/-! ### One block for each template -/

section

variable {cfg : Config ι} {tr : List (Miner ι × Event ι)} {m : Miner ι} {w : ι}
  {i : Instance State} {block : RpcBlock}

/-- A worker that is about to send a block has taken the cell for it in its last step. -/
theorem taken_of_send (h : (machine cfg).Run tr m) (hpc : (m.workers w).pc = .send block)
    (hstate : (m.workers w).state = some i) :
    ∃ before m₀ after, tr = before ++ (m₀, .found w i block true) :: after
      ∧ ∀ x ∈ after, x.2.worker ≠ some w := by
  obtain ⟨m₀, hm₀, hsteps⟩ := h
  have hstart : ¬ ((m₀.workers w).pc = .send block ∧ (m₀.workers w).state = some i) := by
    rintro ⟨hpc, -⟩
    rw [hm₀.worker_eq w] at hpc
    cases hpc
  have hcame : ∀ m e m', Step cfg m e m' →
      (m'.workers w).pc = .send block ∧ (m'.workers w).state = some i →
      e = .found w i block true
        ∨ ((m.workers w).pc = .send block ∧ (m.workers w).state = some i) ∧ e.worker ≠ some w := by
    rintro m e m' hstep ⟨hpc, hstate⟩
    by_cases hw : e.worker = some w
    case neg =>
      rw [hstep.workers_eq hw] at hpc hstate
      exact Or.inr ⟨⟨hpc, hstate⟩, hw⟩
    case pos =>
      left
      cases hstep with
      | template | malformed | unsynced | store | swap | close => cases hw
      | foundTaken w' i' block' hpc' hstate' =>
        obtain rfl : w' = w := Option.some.inj hw
        obtain rfl : block' = block := by simpa using hpc
        obtain rfl : i' = i := Option.some.inj (hstate'.symm.trans (by simpa using hstate))
        rfl
      | _ w' =>
        obtain rfl : w' = w := Option.some.inj hw
        simp at hpc
  obtain ⟨before, m₁, e, after, rfl, rfl, hother⟩ :=
    hsteps.came_from hcame hstart ⟨hpc, hstate⟩
  exact ⟨before, m₁, after, rfl, hother⟩

/-- What is sent has taken the cell. -/
theorem taken_of_submit {pre post : List (Miner ι × Event ι)} {m' : Miner ι}
    (h : (machine cfg).Run (pre ++ (m, .submit w i block) :: post) m') :
    ∃ before m₀ after, pre = before ++ (m₀, .found w i block true) :: after
      ∧ ∀ x ∈ after, x.2.worker ≠ some w := by
  obtain ⟨hpre, m₁, hstep, -⟩ := h.split
  cases hstep with
  | submit _ _ _ hpc hstate => exact taken_of_send hpre hpc hstate

/-- The cell is taken once for each template if it is held at every later call. -/
theorem granted_once (h : (machine cfg).Run tr m)
    (hlate : ∀ pre w i block post, Calls tr pre w i block post → Granted pre i.value.id →
      Occupied pre) {pre post : List (Miner ι × Event ι)} {m₁ : Miner ι}
    (htr : tr = pre ++ (m₁, .found w i block true) :: post) : ¬ Granted pre i.value.id := by
  intro hgranted
  have hoccupied := hlate pre w i block post ⟨m₁, true, htr⟩ hgranted
  obtain ⟨hpre, m₂, hstep, -⟩ := (htr ▸ h).split
  exact (occupied_iff hpre).mp hoccupied ((found_iff hstep).mp rfl)

/-- Each submission has taken the cell for itself. -/
theorem submissions_le_one (h : (machine cfg).Run tr m)
    (honce : ∀ pre m₁ w i block post, tr = pre ++ (m₁, .found w i block true) :: post →
      ¬ Granted pre i.value.id) (id : U64) : submissions tr id ≤ 1 := by
  revert id
  rw [submissions_le_one_iff]
  rintro pre m₁ w i block post rfl ⟨m₂, w', j, block', hmem, hid⟩
  obtain ⟨pre', mid, rfl⟩ := List.append_of_mem hmem
  obtain ⟨before, m₀, after, htr, hother⟩ := taken_of_submit h
  obtain ⟨before', m₀', after', rfl, -⟩ := taken_of_submit h.split.1
  simp only [List.append_assoc, List.cons_append] at htr
  obtain hfirst | hsecond | ⟨heq, hafter⟩ := places htr
  -- the two calls differ, and the later one has taken the cell again
  · exact honce before' m₀' w' j block'
      (after' ++ (m₂, .submit w' j block') :: (mid ++ (m₁, .submit w i block) :: post))
      (by simp only [List.append_assoc, List.cons_append]) ⟨m₀, w, i, block, hfirst, hid.symm⟩
  · have hpre : before' ++ (m₀', .found w' j block' true) :: after'
        ++ (m₂, .submit w' j block') :: mid = before ++ (m₀, .found w i block true) :: after := by
      simpa only [List.append_assoc, List.cons_append] using htr
    refine honce before m₀ w i block (after ++ (m₁, .submit w i block) :: post) ?_
      ⟨m₀', w', j, block', hsecond, hid⟩
    rw [hpre, List.append_assoc, List.cons_append]
  -- they are one call, whose worker has come back before its second submission
  · obtain ⟨rfl, rfl⟩ : w' = w ∧ j = i := by
      obtain ⟨-, rfl, rfl, -⟩ : m₀' = m₀ ∧ w' = w ∧ j = i ∧ block' = block := by simpa using heq
      exact ⟨rfl, rfl⟩
    exact hother (m₂, .submit w' j block') (by simp [← hafter]) rfl

/-- What has been taken twice is sent twice, once every worker has come back. -/
theorem two_le_submissions {pre post : List (Miner ι × Event ι)} {m₁ : Miner ι}
    (h : (machine cfg).Run (pre ++ (m₁, .found w i block true) :: post) m)
    (hopen : ¬ Closed (pre ++ (m₁, .found w i block true) :: post))
    (hgranted : Granted pre i.value.id) (hidle : ∀ w' block', (m.workers w').pc ≠ .send block') :
    2 ≤ submissions (pre ++ (m₁, .found w i block true) :: post) i.value.id := by
  have hsent : ∀ {pre' post' : List (Miner ι × Event ι)} {m₀ w' j block'},
      (machine cfg).Run (pre' ++ (m₀, .found w' j block' true) :: post') m →
      ¬ Closed (pre' ++ (m₀, .found w' j block' true) :: post') →
      ∃ m₂ rest, ownSteps w' post' = (m₂, .submit w' j block') :: rest := by
    intro pre' post' m₀ w' j block' h hopen
    refine (sends_of_taken h hopen).resolve_right ?_
    rintro ⟨-, m₂, hsubmit⟩
    cases hsubmit with
    | submit _ _ _ hpc => exact hidle w' _ hpc
  obtain ⟨m₀, w', j, block', hmem, hid⟩ := hgranted
  obtain ⟨before, mid, rfl⟩ := List.append_of_mem hmem
  obtain ⟨m₂, rest, hown⟩ := hsent h hopen
  simp only [List.append_assoc, List.cons_append] at h hopen
  obtain ⟨m₂', rest', hown'⟩ := hsent h hopen
  have hlast := mem_of_ownSteps hown
  have hsends : sends i.value.id (m₂, .submit w i block) = true :=
    sends_iff.mpr ⟨w, i, block, rfl, rfl⟩
  have hsends' : sends i.value.id (m₂', .submit w' j block') = true :=
    sends_iff.mpr ⟨w', j, block', rfl, hid⟩
  have hmid : ownSteps w' (mid ++ (m₁, .found w i block true) :: post)
      = ownSteps w' mid ++ ownSteps w' ((m₁, .found w i block true) :: post) :=
    List.filter_append ..
  rw [hmid] at hown'
  simp only [submissions, List.countP_append]
  by_cases hbetween : ownSteps w' mid = []
  -- the earlier call is still waiting at the later one: two workers send afterwards
  case pos =>
    have hne : w' ≠ w := by
      rintro rfl
      rw [hbetween, List.nil_append, ownSteps,
        List.filter_cons_of_pos (by simp [Event.worker])] at hown'
      cases hown'
    rw [hbetween, List.nil_append, ownSteps,
      List.filter_cons_of_neg (by simp [Event.worker, hne.symm])]
      at hown'
    have htwo := two_le_countP hlast (mem_of_ownSteps hown') (by simp [hne.symm]) hsends hsends'
    rw [List.countP_cons, List.countP_cons]
    omega
  -- it has come back by then
  case neg =>
    obtain ⟨x, xs, hxs⟩ := List.exists_cons_of_ne_nil hbetween
    rw [hxs] at hown'
    obtain rfl : x = (m₂', .submit w' j block') := (List.cons.inj hown').1
    have hfirst := List.countP_pos_iff.mpr ⟨_, mem_of_ownSteps hxs, hsends'⟩
    have hsecond := List.countP_pos_iff.mpr ⟨_, hlast, hsends⟩
    rw [List.countP_cons, List.countP_cons]
    omega

end

/-- A run sends at most one block of each template if every call of `found_block` for a template
for which the cell has been taken before comes while the cell has been taken since its last reset;
a call for which that fails makes the run send a second block, once every worker has come back and
if the channel stays open. -/
theorem one_block_per_template (cfg : Config ι) {tr : List (Miner ι × Event ι)} {m : Miner ι}
    (h : (machine cfg).Run tr m) :
    ((∀ pre w i block post, Calls tr pre w i block post → Granted pre i.value.id → Occupied pre) →
      ∀ id, submissions tr id ≤ 1)
    ∧ ∀ pre w i block post, Calls tr pre w i block post → Granted pre i.value.id →
      ¬ Occupied pre → ¬ Closed tr → (∀ w' block', (m.workers w').pc ≠ .send block') →
        2 ≤ submissions tr i.value.id := by
  constructor
  · intro hlate
    exact submissions_le_one h fun pre m₁ w i block post htr => granted_once h hlate htr
  · rintro pre w i block post ⟨m₁, taken, rfl⟩ hgranted hfree hopen hidle
    obtain ⟨hpre, m₂, hstep, -⟩ := h.split
    have hcell : m₁.solvedStateId = UNSOLVED :=
      not_not.mp fun hheld => hfree ((occupied_iff hpre).mpr hheld)
    obtain rfl := (found_iff hstep).mpr hcell
    exact two_le_submissions h hopen hgranted hidle

/-- The first block is sent, a new template resets the cell, and the other worker, still at the
old template, sends a second block of it. -/
theorem reset_lets_second_block_through :
    ¬ ∀ (cfg : Config (Fin 2)) (tr : List (Miner (Fin 2) × Event (Fin 2))) (m : Miner (Fin 2)),
      (machine cfg).Run tr m → ∀ id, submissions tr id ≤ 1 := by
  intro hone
  obtain ⟨tr, htr, -⟩ := bothFetched_steps
  have h₁ := htr.step (Step.hashFound bothFetched 0 ⟨0, sampleState⟩ (sampleBlock 2) rfl rfl rfl
    generateBlockIfPow_sample)
  have h₂ := (h₁.step (Step.foundTaken _ 0 solvedSample (sampleBlock 2) rfl rfl rfl)).step
    (Step.submit _ 0 solvedSample (sampleBlock 2) rfl rfl rfl)
  have h₃ := h₂.step (Step.template _ laterBlock laterState rfl
    (mem_new.mpr ⟨_, laterState_builtFrom⟩))
  have h₄ := h₃.step (Step.store _ (some laterState) rfl)
  have h₅ := h₄.step (Step.hashFound _ 1 ⟨0, sampleState⟩ (sampleBlock 2) rfl rfl rfl
    generateBlockIfPow_sample)
  have h₆ := (h₅.step (Step.foundTaken _ 1 solvedSample (sampleBlock 2) rfl rfl rfl)).step
    (Step.submit _ 1 solvedSample (sampleBlock 2) rfl rfl rfl)
  have hrun := hone raceConfig _ _ ⟨raceStart, ⟨rfl, rfl, rfl, rfl, rfl, rfl, fun _ => rfl⟩, h₆⟩
  exact submissions_le_one_iff.mp hrun _ _ 1 solvedSample (sampleBlock 2) [] rfl
    ((((submitted_concat _ _ 0 solvedSample (sampleBlock 2)).append _).append _).append _
      |>.append _)

/-- The second block of a template is held back before the cell is reset. -/
theorem second_block_held_back :
    ∃ tr m pre, (machine raceConfig).Run tr m ∧ Calls tr pre 1 solvedSample (sampleBlock 2) []
      ∧ Granted pre 0 ∧ ∀ id, submissions tr id ≤ 1 := by
  obtain ⟨tr, m₁, m₂, m₃, m₄, m₅, m₆, hquiet, hrun⟩ := late_run
  have hgranted : Granted (lateTrace tr m₁ m₂ m₃ m₄) 0 :=
    ⟨m₂, 0, solvedSample, sampleBlock 2, by simp [lateTrace], rfl⟩
  refine ⟨_, m₆, _, hrun, ⟨m₅, false, rfl⟩, hgranted,
    (one_block_per_template raceConfig hrun).1 ?_⟩
  intro pre w i block post hcall hbefore
  simp only [lateTrace, calls_concat, reduceCtorEq, exists_false, false_and, false_or] at hcall
  obtain ⟨-, rfl, -⟩ | ⟨_, ⟨_, ⟨_, ⟨-, rfl, -⟩ | ⟨_, ⟨_, hcall, -⟩, -⟩, -⟩, -⟩, -⟩ := hcall
  · exact occupied_lateTrace ..
  -- before the first call the cell has not been taken
  · obtain ⟨m, w', j, block', hmem, -⟩ := hbefore
    simp only [List.mem_append, List.mem_singleton, Prod.mk.injEq, reduceCtorEq, and_false,
      or_false] at hmem
    exact absurd (hquiet _ hmem) id
  · obtain ⟨m, taken, rfl⟩ := hcall
    exact absurd (hquiet (m, .found w i block taken) (by simp)) id

end Solo
