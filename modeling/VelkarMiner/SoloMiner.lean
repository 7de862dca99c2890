/-
Solo mining (`MinerManager` of `src/miner.rs`).

The listener turns block templates into states and swaps them into the slot;
any number of workers take them from there.  Every atomic operation, slot swap
and slot read is a step of its own; so is the `compare_exchange` that a call of
`found_block` begins with, and so is its message, which may have to wait.

* `solved_cases` — what a step does to the cell of the solved template;
* `taken_iff` — the content of the cell, from the calls since its last reset;
* `sends_of_taken` — a call that has taken the cell sends its block.
-/
import VelkarMiner.Runs
import VelkarMiner.Gpu

open Rust

namespace Solo

/-- `usize::MAX` in the cell: no template is solved. -/
def UNSOLVED : U64 := BitVec.allOnes 64

/-- Where a worker is in its loop. -/
inductive Pc where
  | top
  | check
  | wait
  | work
  | finish (hits : List GpuHit)
  | found (block : RpcBlock)
  | send (block : RpcBlock)
  | poll
  | stopped

/-- A worker.  `unit` counts the batches it has finished on a device, or the stretches
of nonces that ended at a multiple of 128. -/
structure Worker where
  pc : Pc
  state : Option (Instance State)
  cached : Option (Instance State)
  nonce : U64
  unit : ℕ

/-- Where `process_block` is: the cell is reset before the state is swapped in. -/
inductive Listener where
  | idle
  | store (state : Option State)
  | swap (state : Option State)

structure Miner (ι : Type) where
  slot : Slot State
  solvedStateId : U64
  currentStateId : U64
  isSynced : Bool
  listener : Listener
  channelOpen : Bool
  workers : ι → Worker

inductive Event (ι : Type) where
  | template (block : Option RpcBlock)
  | store
  | swap (state : Option State)
  | close
  | read (w : ι)
  | load (w : ι)
  | batch (w : ι) (i : Instance State) (hits : List GpuHit)
  | hash (w : ι) (i : Instance State) (nonce : U64)
  | found (w : ι) (i : Instance State) (block : RpcBlock) (taken : Bool)
  | submit (w : ι) (i : Instance State) (block : RpcBlock)
  | go (w : ι)

variable {ι : Type} [DecidableEq ι]

/-- The miner after a worker has moved. -/
def Miner.set (m : Miner ι) (w : ι) (x : Worker) : Miner ι :=
  { m with workers := Function.update m.workers w x }

@[simp] theorem Miner.set_workers_self (m : Miner ι) (w : ι) (x : Worker) :
    (m.set w x).workers w = x := Function.update_self ..

@[simp] theorem Miner.set_set (m : Miner ι) (w : ι) (x y : Worker) :
    (m.set w x).set w y = m.set w y := by
  simp [Miner.set]

/-- The worker that takes a step. -/
def Event.worker : Event ι → Option ι
  | .template _ | .store | .swap _ | .close => none
  | .read w | .load w | .batch w _ _ | .hash w _ _ | .found w _ _ _ | .submit w _ _ | .go w =>
    some w

/-- What the state of an instance finds at a nonce. -/
def tryNonce (cfg : Config ι) (i : Instance State) (nonce : U64) :
    Outcome Error (Option RpcBlock) :=
  (i.withNonce nonce).value.generateBlockIfPow cfg.crates

inductive Step (cfg : Config ι) : Miner ι → Event ι → Miner ι → Prop
  -- `process_block`
  | template (m : Miner ι) (block : RpcBlock) (state : State) (hidle : m.listener = .idle)
      (hnew : Outcome.ok state ∈ State.new cfg.crates cfg.computeRank m.currentStateId block) :
      Step cfg m (.template (some block))
        { m with isSynced := true, currentStateId := m.currentStateId + 1,
                 listener := .store (some state) }
  | malformed (m : Miner ι) (block : RpcBlock) (e : Error) (hidle : m.listener = .idle)
      (hnew : Outcome.err e ∈ State.new cfg.crates cfg.computeRank m.currentStateId block) :
      Step cfg m (.template (some block))
        { m with isSynced := true, currentStateId := m.currentStateId + 1 }
  | unsynced (m : Miner ι) (hidle : m.listener = .idle) (hsynced : m.isSynced = true) :
      Step cfg m (.template none) { m with isSynced := false, listener := .store none }
  | store (m : Miner ι) (state : Option State) (hl : m.listener = .store state) :
      Step cfg m .store { m with solvedStateId := UNSOLVED, listener := .swap state }
  | swap (m : Miner ι) (state : Option State) (hl : m.listener = .swap state) :
      Step cfg m (.swap state) { m with slot := m.slot.swap state, listener := .idle }
  -- the receiver of the channel is dropped
  | close (m : Miner ι) : Step cfg m .close { m with channelOpen := false }
  -- the head of the loop: a worker without a state waits for the slot to change
  | topWait (m : Miner ι) (w : ι) (hpc : (m.workers w).pc = .top)
      (hstate : (m.workers w).state = none) (hchanged : m.slot.Changed (m.workers w).cached) :
      Step cfg m (.read w) (m.set w { m.workers w with
        pc := .check, state := m.slot.inner, cached := m.slot.inner })
  | topState (m : Miner ι) (w : ι) (i : Instance State) (hpc : (m.workers w).pc = .top)
      (hstate : (m.workers w).state = some i) :
      Step cfg m (.go w) (m.set w { m.workers w with pc := .check })
  | checkNone (m : Miner ι) (w : ι) (hpc : (m.workers w).pc = .check)
      (hstate : (m.workers w).state = none) :
      Step cfg m (.go w) (m.set w { m.workers w with pc := .top })
  -- the load of the cell
  | checkSolved (m : Miner ι) (w : ι) (i : Instance State) (hpc : (m.workers w).pc = .check)
      (hstate : (m.workers w).state = some i) (hsolved : m.solvedStateId = i.value.id) :
      Step cfg m (.load w) (m.set w { m.workers w with pc := .wait })
  | checkUnsolved (m : Miner ι) (w : ι) (i : Instance State) (hpc : (m.workers w).pc = .check)
      (hstate : (m.workers w).state = some i) (hsolved : m.solvedStateId ≠ i.value.id) :
      Step cfg m (.load w) (m.set w { m.workers w with pc := .work })
  | wait (m : Miner ι) (w : ι) (hpc : (m.workers w).pc = .wait)
      (hchanged : m.slot.Changed (m.workers w).cached) :
      Step cfg m (.read w) (m.set w { m.workers w with
        pc := .top, state := m.slot.inner, cached := m.slot.inner })
  -- a device: the hits are whatever it will return, and only the first one is looked at
  | batch (m : Miner ι) (w : ι) (i : Instance State) (hits : List GpuHit)
      (hgpu : cfg.gpu w = true) (hpc : (m.workers w).pc = .work)
      (hstate : (m.workers w).state = some i) :
      Step cfg m (.batch w i hits) (m.set w { m.workers w with
        pc := .finish hits, nonce := (m.workers w).nonce + cfg.batchSize })
  | searchFailed (m : Miner ι) (w : ι) (hgpu : cfg.gpu w = true) (hpc : (m.workers w).pc = .work) :
      Step cfg m (.go w) (m.set w { m.workers w with pc := .stopped })
  | finishEmpty (m : Miner ι) (w : ι) (hgpu : cfg.gpu w = true)
      (hpc : (m.workers w).pc = .finish []) :
      Step cfg m (.go w) (m.set w { m.workers w with
        pc := .top, unit := (m.workers w).unit + 1 })
  | finishMiss (m : Miner ι) (w : ι) (i : Instance State) (hit : GpuHit) (rest : List GpuHit)
      (hgpu : cfg.gpu w = true) (hpc : (m.workers w).pc = .finish (hit :: rest))
      (hstate : (m.workers w).state = some i) (hmiss : tryNonce cfg i hit.nonce = .ok none) :
      Step cfg m (.go w) (m.set w { m.workers w with
        pc := .top, state := some (i.withNonce hit.nonce), unit := (m.workers w).unit + 1 })
  | finishFound (m : Miner ι) (w : ι) (i : Instance State) (hit : GpuHit) (rest : List GpuHit)
      (block : RpcBlock) (hgpu : cfg.gpu w = true)
      (hpc : (m.workers w).pc = .finish (hit :: rest)) (hstate : (m.workers w).state = some i)
      (hfound : tryNonce cfg i hit.nonce = .ok (some block)) :
      Step cfg m (.go w) (m.set w { m.workers w with
        pc := .found block, state := some (i.withNonce hit.nonce),
        unit := (m.workers w).unit + 1 })
  -- a CPU: one nonce, and a look at the slot after every 128
  | hashFound (m : Miner ι) (w : ι) (i : Instance State) (block : RpcBlock)
      (hgpu : cfg.gpu w = false) (hpc : (m.workers w).pc = .work)
      (hstate : (m.workers w).state = some i)
      (hfound : tryNonce cfg i (m.workers w).nonce = .ok (some block)) :
      Step cfg m (.hash w i (m.workers w).nonce) (m.set w { m.workers w with
        pc := .found block, state := some (i.withNonce (m.workers w).nonce) })
  | hashMiss (m : Miner ι) (w : ι) (i : Instance State) (hgpu : cfg.gpu w = false)
      (hpc : (m.workers w).pc = .work) (hstate : (m.workers w).state = some i)
      (hmiss : tryNonce cfg i (m.workers w).nonce = .ok none)
      (hmore : ((m.workers w).nonce + 1) % 128 ≠ 0) :
      Step cfg m (.hash w i (m.workers w).nonce) (m.set w { m.workers w with
        pc := .top, state := some (i.withNonce (m.workers w).nonce),
        nonce := (m.workers w).nonce + 1 })
  | hashLast (m : Miner ι) (w : ι) (i : Instance State) (hgpu : cfg.gpu w = false)
      (hpc : (m.workers w).pc = .work) (hstate : (m.workers w).state = some i)
      (hmiss : tryNonce cfg i (m.workers w).nonce = .ok none)
      (hlast : ((m.workers w).nonce + 1) % 128 = 0) :
      Step cfg m (.hash w i (m.workers w).nonce) (m.set w { m.workers w with
        pc := .poll, state := some (i.withNonce (m.workers w).nonce),
        nonce := (m.workers w).nonce + 1, unit := (m.workers w).unit + 1 })
  | shutdown (m : Miner ι) (w : ι) (hgpu : cfg.gpu w = false) (hpc : (m.workers w).pc = .poll) :
      Step cfg m (.go w) (m.set w { m.workers w with pc := .stopped })
  | poll (m : Miner ι) (w : ι) (hgpu : cfg.gpu w = false) (hpc : (m.workers w).pc = .poll) :
      Step cfg m (.read w) (m.set w { m.workers w with
        pc := .top
        state := if m.slot.Changed (m.workers w).cached then m.slot.inner
          else (m.workers w).state
        cached := m.slot.getChanged (m.workers w).cached })
  -- `found_block`: the `compare_exchange` on the cell
  | foundTaken (m : Miner ι) (w : ι) (i : Instance State) (block : RpcBlock)
      (hpc : (m.workers w).pc = .found block) (hstate : (m.workers w).state = some i)
      (hcell : m.solvedStateId = UNSOLVED) :
      Step cfg m (.found w i block true)
        ({ m with solvedStateId := i.value.id }.set w { m.workers w with pc := .send block })
  | foundLate (m : Miner ι) (w : ι) (i : Instance State) (block : RpcBlock)
      (hpc : (m.workers w).pc = .found block) (hstate : (m.workers w).state = some i)
      (hcell : m.solvedStateId ≠ UNSOLVED) :
      Step cfg m (.found w i block false)
        (m.set w { m.workers w with pc := .top, state := none })
  -- `blocking_send`, which waits while the channel, shared with the client's own requests, is full
  | submit (m : Miner ι) (w : ι) (i : Instance State) (block : RpcBlock)
      (hpc : (m.workers w).pc = .send block) (hstate : (m.workers w).state = some i)
      (hopen : m.channelOpen = true) :
      Step cfg m (.submit w i block) (m.set w { m.workers w with pc := .top, state := none })
  | submitClosed (m : Miner ι) (w : ι) (block : RpcBlock)
      (hpc : (m.workers w).pc = .send block) (hclosed : m.channelOpen = false) :
      Step cfg m (.go w) (m.set w { m.workers w with pc := .stopped })

/-- A miner before its first template, with any first nonces. -/
structure Initial (m : Miner ι) : Prop where
  slot_eq : m.slot = Slot.empty
  solvedStateId_eq : m.solvedStateId = UNSOLVED
  currentStateId_eq : m.currentStateId = 0
  isSynced_eq : m.isSynced = true
  listener_eq : m.listener = .idle
  channelOpen_eq : m.channelOpen = true
  worker_eq : ∀ w, m.workers w = ⟨.top, none, none, (m.workers w).nonce, 0⟩

def machine (cfg : Config ι) : Machine (Miner ι) (Event ι) := ⟨Initial, Step cfg⟩

/-! ### Steps -/

theorem Step.workers_eq {cfg : Config ι} {m m' : Miner ι} {e : Event ι} (h : Step cfg m e m')
    {w : ι} (hw : e.worker ≠ some w) : m'.workers w = m.workers w := by
  cases h with
  | template | malformed | unsynced | store | swap | close => rfl
  | _ => exact Function.update_of_ne (fun h => hw (congrArg some h.symm)) ..

/-- What a step does to the cell: only the listener and `found_block` write it. -/
theorem solved_cases {cfg : Config ι} {m m' : Miner ι} {e : Event ι} (h : Step cfg m e m') :
    (m'.solvedStateId = m.solvedStateId ∧ e ≠ .store ∧ ∀ w i block, e ≠ .found w i block true)
      ∨ m'.solvedStateId = UNSOLVED ∧ e = .store
      ∨ ∃ w i block, e = .found w i block true ∧ m.solvedStateId = UNSOLVED
          ∧ m'.solvedStateId = i.value.id := by
  cases h with
  | store => exact Or.inr (Or.inl ⟨rfl, rfl⟩)
  | foundTaken w i block hpc hstate hcell =>
    exact Or.inr (Or.inr ⟨w, i, block, rfl, hcell, rfl⟩)
  | _ => exact Or.inl ⟨rfl, by simp, by simp⟩

/-- A call of `found_block` takes the cell precisely when it is free. -/
theorem found_iff {cfg : Config ι} {m m' : Miner ι} {w : ι} {i : Instance State} {block : RpcBlock}
    {taken : Bool} (h : Step cfg m (.found w i block taken) m') :
    taken = true ↔ m.solvedStateId = UNSOLVED := by
  cases h with
  | foundTaken _ _ _ hpc hstate hcell => exact iff_of_true rfl hcell
  | foundLate _ _ _ hpc hstate hcell => exact iff_of_false (by simp) hcell

/-- The steps that one worker takes. -/
def ownSteps (w : ι) (tr : List (Miner ι × Event ι)) : List (Miner ι × Event ι) :=
  tr.filter fun x => x.2.worker = some w

/-- A path up to the first step of a worker, which still is where it was. -/
theorem ownSteps_cases {cfg : Config ι} {m m' : Miner ι} {tr : List (Miner ι × Event ι)} {w : ι}
    (h : (machine cfg).Steps m tr m') :
    (ownSteps w tr = [] ∧ m'.workers w = m.workers w)
      ∨ ∃ m₁ e m₂ rest, ownSteps w tr = (m₁, e) :: ownSteps w rest ∧ e.worker = some w
        ∧ m₁.workers w = m.workers w ∧ Step cfg m₁ e m₂ ∧ (machine cfg).Steps m₂ rest m' := by
  have hkeep : ∀ (s : Miner ι) (e : Event ι) t, (machine cfg).step s e t →
      decide (e.worker = some w) = false → t.workers w = s.workers w := by
    intro s e t hstep hother
    exact Step.workers_eq hstep (of_decide_eq_false hother)
  obtain ⟨hnone, hsame⟩ | ⟨m₁, e, m₂, rest, hown, hw, hsame, hstep, hrest⟩ :=
    h.first_own (fun m : Miner ι => m.workers w)
      (fun e : Event ι => decide (e.worker = some w)) hkeep
  · exact Or.inl ⟨hnone, hsame⟩
  · exact Or.inr ⟨m₁, e, m₂, rest, hown, of_decide_eq_true hw, hsame, hstep, hrest⟩

/-! ### The cell, from the calls -/

/-- Since the last reset of the cell a worker has taken it for a template, before `after`. -/
def Taken (tr : List (Miner ι × Event ι)) (w : ι) (id : U64)
    (after : List (Miner ι × Event ι)) : Prop :=
  ∃ before m i block, tr = before ++ (m, .found w i block true) :: after
    ∧ (∀ x ∈ after, x.2 ≠ .store) ∧ i.value.id = id

omit [DecidableEq ι] in
theorem not_taken_nil {w : ι} {id : U64} {after : List (Miner ι × Event ι)} :
    ¬ Taken ([] : List (Miner ι × Event ι)) w id after := by
  rintro ⟨before, m, i, block, htr, -⟩
  cases before <;> cases htr

omit [DecidableEq ι] in
theorem taken_concat {tr after : List (Miner ι × Event ι)} {m : Miner ι} {e : Event ι} {w : ι}
    {id : U64} : Taken (tr ++ [(m, e)]) w id after
      ↔ (∃ i block, e = .found w i block true ∧ i.value.id = id ∧ after = [])
        ∨ e ≠ .store ∧ ∃ after', Taken tr w id after' ∧ after = after' ++ [(m, e)] := by
  constructor
  · rintro ⟨before, m₀, i, block, htr, hquiet, hid⟩
    obtain rfl | ⟨after', x, rfl⟩ := List.eq_nil_or_concat' after
    · obtain ⟨rfl, hx⟩ := List.append_inj' htr rfl
      obtain ⟨rfl, rfl⟩ : m = m₀ ∧ e = .found w i block true := by simpa using hx
      exact Or.inl ⟨i, block, rfl, hid, rfl⟩
    · rw [← List.cons_append, ← List.append_assoc] at htr
      obtain ⟨rfl, hx⟩ := List.append_inj' htr rfl
      obtain rfl : (m, e) = x := by simpa using hx
      exact Or.inr ⟨hquiet (m, e) (by simp), after',
        ⟨before, m₀, i, block, rfl, fun y hy => hquiet y (by simp [hy]), hid⟩, rfl⟩
  · rintro (⟨i, block, rfl, hid, rfl⟩ | ⟨he, after', ⟨before, m₀, i, block, rfl, hquiet, hid⟩, rfl⟩)
    · exact ⟨tr, m, i, block, rfl, by simp, hid⟩
    · obtain ⟨hsplit, hquiet'⟩ := Machine.quiet_concat (y := (m, e)) hquiet he
      exact ⟨before, m₀, i, block, hsplit, hquiet', hid⟩

/-- The cell holds a template precisely when it has been taken for it since its last reset. -/
theorem taken_iff {cfg : Config ι} {tr : List (Miner ι × Event ι)} {m : Miner ι}
    (h : (machine cfg).Run tr m) {id : U64} (hid : id ≠ UNSOLVED) :
    m.solvedStateId = id ↔ ∃ w after, Taken tr w id after := by
  refine Machine.Run.induction
    (P := fun tr m => m.solvedStateId = id ↔ ∃ w after, Taken tr w id after) ?_ ?_ h
  · intro m hm
    rw [hm.solvedStateId_eq]
    exact iff_of_false hid.symm fun ⟨_, _, htaken⟩ => not_taken_nil htaken
  · intro tr m e m' _ ih hstep
    simp only [taken_concat]
    obtain ⟨hsame, hstore, hfound⟩ | ⟨hreset, rfl⟩ | ⟨w, i, block, rfl, hcell, hnew⟩ :=
      solved_cases hstep
    · rw [hsame, ih]
      constructor
      · rintro ⟨w, after, htaken⟩
        exact ⟨w, _, Or.inr ⟨hstore, after, htaken, rfl⟩⟩
      · rintro ⟨w, after, ⟨i, block, he, -⟩ | ⟨-, after', htaken, -⟩⟩
        · exact absurd he (hfound w i block)
        · exact ⟨w, after', htaken⟩
    · rw [hreset]
      refine iff_of_false hid.symm ?_
      rintro ⟨w, after, ⟨i, block, he, -⟩ | ⟨hstore, -⟩⟩
      · cases he
      · exact hstore rfl
    · rw [hnew]
      constructor
      · exact fun heq => ⟨w, [], Or.inl ⟨i, block, rfl, heq, rfl⟩⟩
      · rintro ⟨w', after, ⟨i', block', he, heq, -⟩ | ⟨-, after', htaken, -⟩⟩
        · cases he
          exact heq
        · -- the cell was free, and so it had not been taken for another template
          exact absurd ((ih.mpr ⟨w', after', htaken⟩).symm.trans hcell) hid

/-! ### The message of a call -/

/-- A block of the template has been submitted. -/
def Submitted (tr : List (Miner ι × Event ι)) (id : U64) : Prop :=
  ∃ m w i block, (m, Event.submit w i block) ∈ tr ∧ i.value.id = id

/-- The receiver of the channel has been dropped. -/
def Closed (tr : List (Miner ι × Event ι)) : Prop := ∃ m, (m, Event.close) ∈ tr

theorem channelOpen_of_not_closed {cfg : Config ι} {tr : List (Miner ι × Event ι)} {m : Miner ι}
    (h : (machine cfg).Run tr m) (hopen : ¬ Closed tr) : m.channelOpen = true := by
  revert hopen
  refine Machine.Run.induction (P := fun tr m => ¬ Closed tr → m.channelOpen = true) ?_ ?_ h
  · exact fun m hm _ => hm.channelOpen_eq
  · intro tr m e m' _ ih hstep hopen
    have hbefore : m.channelOpen = true :=
      ih fun ⟨m₀, hmem⟩ => hopen ⟨m₀, List.mem_append_left _ hmem⟩
    cases hstep with
    | close => exact absurd ⟨m, by simp⟩ hopen
    | _ => exact hbefore

omit [DecidableEq ι] in
theorem Closed.append {tr : List (Miner ι × Event ι)} (h : Closed tr)
    (rest : List (Miner ι × Event ι)) : Closed (tr ++ rest) := by
  obtain ⟨m, hmem⟩ := h
  exact ⟨m, List.mem_append_left rest hmem⟩

/-- A worker in `blocking_send` goes on with the message, unless the channel is closed. -/
theorem step_at_send {cfg : Config ι} {m m' : Miner ι} {e : Event ι} {w : ι} {block : RpcBlock}
    {i : Instance State} (h : Step cfg m e m') (hw : e.worker = some w)
    (hpc : (m.workers w).pc = .send block) (hstate : (m.workers w).state = some i) :
    e = .submit w i block ∧ m.channelOpen = true ∨ m.channelOpen = false := by
  cases h with
  | submit w' i' block' hpc' hstate' hopen =>
    obtain rfl : w' = w := Option.some.inj hw
    obtain rfl : block' = block := by simpa [hpc'] using hpc
    obtain rfl : i' = i := Option.some.inj (hstate'.symm.trans hstate)
    exact Or.inl ⟨rfl, hopen⟩
  | submitClosed w' block' hpc' hclosed => exact Or.inr hclosed
  | template | malformed | unsynced | store | swap | close => cases hw
  | _ w' =>
    -- other steps start elsewhere
    obtain rfl : w' = w := Option.some.inj hw
    simp_all

/-- The next step of the worker is the message with the block, which it has sent or can send. -/
def Sends (cfg : Config ι) (w : ι) (i : Instance State) (block : RpcBlock)
    (post : List (Miner ι × Event ι)) (m : Miner ι) : Prop :=
  (∃ m' rest, ownSteps w post = (m', .submit w i block) :: rest)
    ∨ ownSteps w post = [] ∧ ∃ m', Step cfg m (.submit w i block) m'

/-- While the channel is open a call that takes the cell sends its block. -/
theorem sends_of_taken {cfg : Config ι} {pre post : List (Miner ι × Event ι)} {m m' : Miner ι}
    {w : ι} {i : Instance State} {block : RpcBlock}
    (h : (machine cfg).Run (pre ++ (m, .found w i block true) :: post) m')
    (hopen : ¬ Closed (pre ++ (m, .found w i block true) :: post)) :
    Sends cfg w i block post m' := by
  have hend := channelOpen_of_not_closed h hopen
  obtain ⟨hpre, m₁, hstep, hpost⟩ := h.split
  have hcalled := hpre.concat hstep
  obtain ⟨hpc, hstate⟩ :
      (m₁.workers w).pc = .send block ∧ (m₁.workers w).state = some i := by
    cases hstep with
    | foundTaken _ _ _ hpc hstate => exact ⟨by simp, by simpa using hstate⟩
  obtain ⟨hnone, hsame⟩ | ⟨m₂, e, m₃, rest, hown, hw, hsame, hstep₂, hrest⟩ :=
    ownSteps_cases (w := w) hpost
  · rw [← hsame] at hpc hstate
    exact Or.inr ⟨hnone, _, .submit m' w i block hpc hstate hend⟩
  · rw [← hsame] at hpc hstate
    obtain ⟨rfl, -⟩ | hclosed := step_at_send hstep₂ hw hpc hstate
    · exact Or.inl ⟨m₂, _, hown⟩
    · -- what is open at the end was open before
      have hstill := (Machine.Steps.cons hstep₂ hrest).invariant
        (P := fun m => m.channelOpen = false) ?_ hclosed
      · rw [hend] at hstill
        cases hstill
      · intro s e t hs hst
        cases hst with
        | close => rfl
        | _ => exact hs

/-! ### Workers with a template -/

/-- The label is no part of a call of `found_block`, and does not close the channel. -/
def Event.Quiet : Event ι → Prop
  | .found _ _ _ _ | .submit _ _ _ | .close => False
  | _ => True

/-- The miner after the listener has delivered a template. -/
def Miner.deliver (m : Miner ι) (state : State) : Miner ι :=
  { m with isSynced := true, currentStateId := m.currentStateId + 1, solvedStateId := UNSOLVED,
           slot := m.slot.swap (some state), listener := .idle }

theorem deliver_steps (cfg : Config ι) {m : Miner ι} {b : RpcBlock} {state : State}
    (hidle : m.listener = .idle)
    (hnew : Outcome.ok state ∈ State.new cfg.crates cfg.computeRank m.currentStateId b) :
    ∃ tr m', (machine cfg).Steps m (tr ++ [(m', .swap (some state))]) (m.deliver state)
      ∧ m'.slot = m.slot ∧ ∀ x ∈ tr ++ [(m', .swap (some state))], x.2.Quiet := by
  have h1 := Machine.Steps.step (M := machine cfg) .refl (Step.template m b state hidle hnew)
  have h2 := h1.step (Step.store _ (some state) rfl)
  have h3 := h2.step (Step.swap _ (some state) rfl)
  exact ⟨_, _, h3, rfl, by simp [Event.Quiet]⟩

/-- The miner after a worker without a state has taken one from the slot. -/
def Miner.fetch (m : Miner ι) (w : ι) (i : Instance State) : Miner ι :=
  m.set w { m.workers w with pc := .work, state := some i, cached := some i }

theorem fetch_steps (cfg : Config ι) {m : Miner ι} {w : ι} {i : Instance State}
    (hpc : (m.workers w).pc = .top) (hstate : (m.workers w).state = none)
    (hslot : m.slot.inner = some i) (hchanged : m.slot.Changed (m.workers w).cached)
    (hcell : m.solvedStateId ≠ i.value.id) :
    ∃ tr, (machine cfg).Steps m tr (m.fetch w i) ∧ ∀ x ∈ tr, x.2.Quiet := by
  have h1 := Machine.Steps.step (M := machine cfg) .refl (Step.topWait m w hpc hstate hchanged)
  have h2 := h1.step (Step.checkUnsolved _ w i (by simp) (by simp [hslot]) hcell)
  simp only [Miner.set_set, Miner.set_workers_self, hslot] at h2
  exact ⟨_, h2, by simp [Event.Quiet]⟩

open State

/-- A newer template of the sample, with another transaction. -/
def laterBlock : RpcBlock := { sampleBlock 0 with transactions := [⟨[1]⟩] }

def laterState : State :=
  { sampleState with id := 1, block := some laterBlock
                     block_header := by simp [laterBlock, sampleBlock] }

theorem laterState_builtFrom :
    BuiltFrom laterState sampleCrates (fun _ => 64) 1 laterBlock sampleHeader :=
  { sampleState_builtFrom with header_eq := rfl, id_eq := rfl, block_eq := rfl }

theorem generateBlockIfPow_later :
    ({ laterState with nonce := 2 } : State).generateBlockIfPow sampleCrates
      = .ok (some { sampleBlock 2 with transactions := [⟨[1]⟩] }) := by
  have hpow : ({ laterState with nonce := 2 } : State).calculatePow sampleCrates = samplePow :=
    powOf_sample
  rw [generateBlockIfPow_eq laterState_builtFrom, hpow, if_pos (by decide +kernel)]
  rfl

/-- Two workers on CPUs, both about to try the nonce that solves the sample. -/
def raceConfig : Config (Fin 2) := ⟨sampleCrates, fun _ => 64, fun _ => false, 1⟩

def raceStart : Miner (Fin 2) where
  slot := .empty
  solvedStateId := UNSOLVED
  currentStateId := 0
  isSynced := true
  listener := .idle
  channelOpen := true
  workers := fun _ => ⟨.top, none, none, 2, 0⟩

/-- Each worker has a template of its own: the second one has come while the first worker
was hashing. -/
def raceBoth : Miner (Fin 2) :=
  ((((raceStart.deliver sampleState).fetch 0 ⟨0, sampleState⟩).deliver laterState).fetch 1
    ⟨1, laterState⟩)

theorem raceBoth_steps :
    ∃ tr, (machine raceConfig).Steps raceStart tr raceBoth ∧ ∀ x ∈ tr, x.2.Quiet := by
  obtain ⟨tr₁, s₁, h₁, -, hq₁⟩ := deliver_steps raceConfig (m := raceStart) rfl
    (mem_new.mpr ⟨_, sampleState_builtFrom⟩)
  obtain ⟨tr₂, h₂, hq₂⟩ := fetch_steps raceConfig (m := raceStart.deliver sampleState)
    (w := 0) (i := ⟨0, sampleState⟩) rfl rfl rfl (by decide) (by decide)
  obtain ⟨tr₃, s₃, h₃, -, hq₃⟩ := deliver_steps raceConfig (b := laterBlock)
    (m := (raceStart.deliver sampleState).fetch 0 ⟨0, sampleState⟩) rfl
    (mem_new.mpr ⟨_, laterState_builtFrom⟩)
  obtain ⟨tr₄, h₄, hq₄⟩ := fetch_steps raceConfig
    (m := ((raceStart.deliver sampleState).fetch 0 ⟨0, sampleState⟩).deliver laterState)
    (w := 1) (i := ⟨1, laterState⟩) rfl rfl rfl (by decide) (by decide)
  have hq₁₂ := List.forall_mem_append.mpr ⟨hq₁, hq₂⟩
  have hq₁₃ := List.forall_mem_append.mpr ⟨hq₁₂, hq₃⟩
  exact ⟨_, ((h₁.append h₂).append h₃).append h₄, List.forall_mem_append.mpr ⟨hq₁₃, hq₄⟩⟩

end Solo
