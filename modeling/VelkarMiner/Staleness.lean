/-
How long a worker goes on with a job that has been replaced.

Every worker loop but one looks at its slot before each batch of a device or after
each 128 nonces of a CPU: its steps are steps of a poller.  The loop that mines
solo on a device looks at the slot only after it has found a block.

* `Solo.held`, `StratumMiner.held`, `Devfund.held` — a worker works on the instance
  it has seen last;
* `workers_prompt` — which runs are prompt.
-/
import VelkarMiner.Polling
import VelkarMiner.SoloMiner
import VelkarMiner.Shares

open Rust

/-! ### Solo mining -/

namespace Solo

variable {ι : Type} [DecidableEq ι]

/-- A worker on a CPU owes a look after 128 nonces; one that has stopped owes it for good. -/
def Pc.Due (pc : Pc) : Prop := pc = .poll ∨ pc = .stopped

def poller (w : ι) (m : Miner ι) : Poller State :=
  ⟨m.slot, (m.workers w).cached, (m.workers w).unit, (m.workers w).pc.Due⟩

def swaps : Event ι → Prop
  | .swap (some _) => True
  | _ => False

/-- The instance a worker works on. -/
def workOf (w : ι) : Event ι → Option (Instance State)
  | .batch w' i _ | .hash w' i _ => if w' = w then some i else none
  | _ => none

/-- What a worker holds it has seen last. -/
theorem held {cfg : Config ι} {tr : List (Miner ι × Event ι)} {m : Miner ι}
    (h : (machine cfg).Run tr m) (w : ι) {i : Instance State} (hi : (m.workers w).state = some i) :
    Slot.Holds (m.workers w).cached i.stamp := by
  revert i
  refine Machine.Run.invariant (P := fun m => ∀ {i}, (m.workers w).state = some i →
    Slot.Holds (m.workers w).cached i.stamp) ?_ ?_ h
  · intro m hm i hi
    rw [hm.worker_eq w] at hi
    cases hi
  · intro m e m' hheld hstep i hi
    by_cases hw : e.worker = some w
    case neg =>
      rw [hstep.workers_eq hw] at hi ⊢
      exact hheld hi
    case pos =>
      cases hstep with
      | template | malformed | unsynced | store | swap | close => cases hw
      | topWait w' | wait w' =>
        obtain rfl : w' = w := Option.some.inj hw
        simp only [Miner.set_workers_self] at hi ⊢
        exact ⟨i, hi, rfl⟩
      | poll w' =>
        obtain rfl : w' = w := Option.some.inj hw
        simp only [Miner.set_workers_self] at hi ⊢
        exact Slot.holds_getChanged hheld hi
      | finishMiss w' j hit rest hgpu hpc hstate | finishFound w' j hit rest block hgpu hpc hstate
      | hashFound w' j block hgpu hpc hstate | hashMiss w' j hgpu hpc hstate
      | hashLast w' j hgpu hpc hstate =>
        -- only the nonce of the state changes
        obtain rfl : w' = w := Option.some.inj hw
        simp only [Miner.set_workers_self] at hi ⊢
        obtain rfl := Option.some.inj hi
        show Slot.Holds _ j.stamp
        exact hheld hstate
      | foundLate w' | submit w' =>
        obtain rfl : w' = w := Option.some.inj hw
        simp at hi
      | _ w' =>
        obtain rfl : w' = w := Option.some.inj hw
        simp only [Miner.set_workers_self] at hi ⊢
        exact hheld hi

theorem poller_set (m : Miner ι) (w : ι) (x : Worker) :
    poller w (m.set w x) = ⟨m.slot, x.cached, x.unit, x.pc.Due⟩ := by
  rw [poller, Miner.set_workers_self]
  rfl

/-- Only the listener changes the slot. -/
theorem slot_cases {cfg : Config ι} {m m' : Miner ι} {e : Event ι} (h : Step cfg m e m') :
    (∃ val, m'.slot = m.slot.swap val) ∨ m'.slot = m.slot := by
  cases h with
  | swap val => exact Or.inl ⟨val, rfl⟩
  | _ => exact Or.inr rfl

theorem swap_of_swaps {cfg : Config ι} {m m' : Miner ι} {e : Event ι} (h : Step cfg m e m')
    (hs : swaps e) : ∃ val, m'.slot = m.slot.swap val := by
  cases h with
  | swap val => exact ⟨val, rfl⟩
  | _ => cases hs

theorem poller_step {cfg : Config ι} {m m' : Miner ι} {e : Event ι} (h : Step cfg m e m') {w : ι}
    (hcpu : cfg.gpu w = false) : Poller.Step (poller w m) (poller w m') := by
  by_cases hw : e.worker = some w
  -- the slot may be swapped under the worker
  case neg =>
    have hworkers := h.workers_eq hw
    rw [poller, poller, hworkers]
    obtain ⟨val, hslot⟩ | hslot := slot_cases h
    · rw [hslot]
      exact .swap (poller w m) val
    · rw [hslot]
      exact .rest (poller w m) _ id
  case pos =>
    cases h with
    | template | malformed | unsynced | store | swap | close => cases hw
    -- the three places where the worker looks at the slot
    | topWait w' hpc hstate hchanged | wait w' hpc hchanged =>
      obtain rfl : w' = w := Option.some.inj hw
      rw [poller_set, ← Slot.getChanged_of_changed hchanged]
      exact .look (poller w' m) _
    | poll w' hcpu hpc =>
      obtain rfl : w' = w := Option.some.inj hw
      rw [poller_set]
      exact .look (poller w' m) _
    -- the end of a round makes the next look due
    | hashLast w' i hcpu hpc hstate hmiss hlast =>
      obtain rfl : w' = w := Option.some.inj hw
      rw [poller_set]
      exact .finish (poller w' m) _ (Or.inl rfl)
    | finishEmpty w' hgpu | finishMiss w' i hit rest hgpu | finishFound w' i hit rest block hgpu =>
      obtain rfl : w' = w := Option.some.inj hw
      simp [hcpu] at hgpu
    -- all other steps neither look nor finish
    | _ w' =>
      obtain rfl : w' = w := Option.some.inj hw
      rw [poller_set]
      exact .rest (poller w' m) _ (by simp [poller, Pc.Due, *])

/-- A worker works on the instance it holds. -/
theorem working {cfg : Config ι} {m m' : Miner ι} {e : Event ι} (h : Step cfg m e m') {w : ι}
    {j : Instance State} (hj : workOf w e = some j) :
    (m.workers w).pc = .work ∧ (m.workers w).state = some j := by
  cases h with
  | batch w' i hits hgpu hpc hstate | hashFound w' i block hgpu hpc hstate
  | hashMiss w' i hgpu hpc hstate | hashLast w' i hgpu hpc hstate =>
    obtain ⟨rfl, rfl⟩ : w' = w ∧ i = j := by simpa [workOf] using hj
    exact ⟨hpc, hstate⟩
  | _ => cases hj

/-- On a CPU every run is prompt. -/
theorem prompt_cpu {cfg : Config ι} {w : ι} (hcpu : cfg.gpu w = false)
    {tr : List (Miner ι × Event ι)} {m : Miner ι} (h : (machine cfg).Run tr m) :
    Prompt (poller w) swaps (fun e => (workOf w e).isSome) (workOf w) tr := by
  refine prompt_of_poller (fun m (hm : Initial m) => hm.slot_eq)
    (fun _ _ _ _ _ hstep => poller_step hstep hcpu)
    (fun _ _ _ hstep hs => swap_of_swaps hstep hs) ?_ h
  intro tr m e m' j hrun hstep hj
  obtain ⟨hpc, hstate⟩ := working hstep hj
  refine ⟨?_, held hrun w hstate⟩
  simp [poller, Pc.Due, hpc]

/-! ### Solo mining on a device -/

/-- The first hit of a batch is a block. -/
def Solves (cfg : Config ι) (i : Instance State) (hits : List GpuHit) : Prop :=
  ∃ hit rest block, hits = hit :: rest ∧ tryNonce cfg i hit.nonce = .ok (some block)

/-- The instance has been swapped out for another one. -/
def Replaced (tr : List (Miner ι × Event ι)) (i : Instance State) : Prop :=
  ∃ m e i', (m, e) ∈ tr ∧ swaps e ∧ m.slot.inner = some i' ∧ i'.stamp = i.stamp

/-- A batch on an instance that has been replaced finds a block. -/
def Unstuck (cfg : Config ι) (w : ι) (tr : List (Miner ι × Event ι)) : Prop :=
  ∀ pre m i hits post, tr = pre ++ (m, .batch w i hits) :: post → Replaced pre i →
    Solves cfg i hits

/-- Instance `k` has left the slot, and the worker does not hold it or will drop it before its
next batch. -/
structure Leaving (cfg : Config ι) (w : ι) (k : ℕ) (m : Miner ι) : Prop where
  gone : m.slot.Gone k
  leaving : (¬ Slot.Holds (m.workers w).cached k ∨ (m.workers w).state = none)
    ∨ (∃ block, (m.workers w).pc = .found block ∨ (m.workers w).pc = .send block)
    ∨ (m.workers w).pc = .stopped
    ∨ ∃ hits j, (m.workers w).pc = .finish hits ∧ (m.workers w).state = some j ∧ Solves cfg j hits

theorem leaving_step {cfg : Config ι} {m m' : Miner ι} {e : Event ι} (h : Step cfg m e m') {w : ι}
    (hgpu : cfg.gpu w = true) {k : ℕ} (hm : Leaving cfg w k m) : Leaving cfg w k m' := by
  refine ⟨hm.gone.step (slot_cases h), ?_⟩
  by_cases hw : e.worker = some w
  case neg =>
    rw [h.workers_eq hw]
    exact hm.leaving
  case pos =>
    cases h with
    | template | malformed | unsynced | store | swap | close => cases hw
    -- the worker looks at the slot and takes what is there now, which is not the one that is gone
    | topWait w' | wait w' =>
      obtain rfl : w' = w := Option.some.inj hw
      rw [Miner.set_workers_self]
      exact Or.inl (Or.inl (hm.gone.not_holds_of_ptr rfl))
    | finishEmpty w' hdev hpc =>
      obtain rfl : w' = w := Option.some.inj hw
      rw [Miner.set_workers_self]
      simpa [hpc, Solves] using hm.leaving
    -- a batch that is solved does not end in a miss
    | finishMiss w' j hit rest hdev hpc hstate hmiss =>
      obtain rfl : w' = w := Option.some.inj hw
      rw [Miner.set_workers_self]
      have hleaving := hm.leaving
      simp only [hpc, hstate, Solves, reduceCtorEq, exists_false, false_or, or_false,
        Pc.finish.injEq] at hleaving
      obtain hnot | ⟨hits, j', rfl, hj, hit', rest', block, hcons, hfound⟩ := hleaving
      · exact Or.inl (Or.inl hnot)
      · obtain ⟨rfl, rfl⟩ : hit = hit' ∧ rest = rest' := by simpa using hcons
        obtain rfl : j = j' := Option.some.inj hj
        simp [hmiss] at hfound
    | finishFound w' =>
      obtain rfl : w' = w := Option.some.inj hw
      rw [Miner.set_workers_self]
      exact Or.inr (Or.inl ⟨_, Or.inl rfl⟩)
    | foundTaken w' =>
      obtain rfl : w' = w := Option.some.inj hw
      rw [Miner.set_workers_self]
      exact Or.inr (Or.inl ⟨_, Or.inr rfl⟩)
    -- after a block is sent the worker holds nothing; after a closed channel it has failed
    | foundLate w' | submit w' =>
      obtain rfl : w' = w := Option.some.inj hw
      rw [Miner.set_workers_self]
      exact Or.inl (Or.inr rfl)
    | submitClosed w' | searchFailed w' =>
      obtain rfl : w' = w := Option.some.inj hw
      rw [Miner.set_workers_self]
      exact Or.inr (Or.inr (Or.inl rfl))
    -- a device never hashes on the processor
    | hashFound w' i block hcpu | hashMiss w' i hcpu | hashLast w' i hcpu | shutdown w' hcpu
    | poll w' hcpu =>
      obtain rfl : w' = w := Option.some.inj hw
      simp [hgpu] at hcpu
    | topState w' i hpc | checkNone w' hpc | checkSolved w' i hpc | checkUnsolved w' i hpc
    | batch w' i hits hdev hpc =>
      obtain rfl : w' = w := Option.some.inj hw
      rw [Miner.set_workers_self]
      have hleaving := hm.leaving
      simp only [hpc, reduceCtorEq, exists_false, false_and, or_false] at hleaving
      exact Or.inl hleaving

/-- On a device a run is prompt if every batch on an instance that has been replaced finds a
block. -/
theorem prompt_gpu {cfg : Config ι} {w : ι} (hgpu : cfg.gpu w = true)
    {tr : List (Miner ι × Event ι)} {m : Miner ι} (h : (machine cfg).Run tr m)
    (hunstuck : Unstuck cfg w tr) :
    Prompt (poller w) swaps (fun e => (workOf w e).isSome) (workOf w) tr := by
  rintro pre s₀ e₀ mid s₁ e₁ mid' s₂ e₂ post i j₂ rfl hs hi hw₁ hw₂ - hstamp
  obtain ⟨j₁, hw₁⟩ := Option.isSome_iff_exists.mp hw₁
  obtain ⟨hrun₀, t₀, hstep₀, hpath₀⟩ := h.split
  obtain ⟨hpath₁, t₁, hstep₁, hpath₂⟩ := hpath₀.split_cons
  obtain ⟨hpath₂, t₂, hstep₂, -⟩ := hpath₂.split_cons
  have hgone : s₁.slot.Gone i.stamp :=
    gone_of_run Miner.slot (fun m (hm : Initial m) => hm.slot_eq)
      (fun _ _ _ _ _ hst => slot_cases hst) hrun₀ hstep₀ (swap_of_swaps hstep₀ hs) hi hpath₁
  have hrun₁ := (hrun₀.concat hstep₀).append hpath₁
  obtain ⟨hpc₁, hstate₁⟩ := working hstep₁ hw₁
  -- after its batch the worker is about to drop the instance
  have hleaving₁ : Leaving cfg w i.stamp t₁ := by
    by_cases hstamp₁ : j₁.stamp = i.stamp
    case neg =>
      refine leaving_step hstep₁ hgpu ⟨hgone, Or.inl (Or.inl ?_)⟩
      obtain ⟨x, hx, hxj⟩ := held hrun₁ w hstate₁
      rintro ⟨y, hy, hyi⟩
      obtain rfl : x = y := Option.some.inj (hx.symm.trans hy)
      exact hstamp₁ (hxj.symm.trans hyi)
    case pos =>
      refine ⟨hgone.step (slot_cases hstep₁), Or.inr (Or.inr (Or.inr ?_))⟩
      cases hstep₁ with
      | batch w' i' hits hdev hpc hstate =>
        obtain ⟨rfl, rfl⟩ : w' = w ∧ i' = j₁ := by simpa [workOf] using hw₁
        have hsolves : Solves cfg i' hits :=
          hunstuck (pre ++ (s₀, e₀) :: mid) s₁ i' hits (mid' ++ (s₂, e₂) :: post) (by simp)
            ⟨s₀, e₀, i, by simp, hs, hi, hstamp₁.symm⟩
        rw [Miner.set_workers_self]
        exact ⟨hits, i', rfl, hstate, hsolves⟩
      | hashFound w' i' block hcpu | hashMiss w' i' hcpu | hashLast w' i' hcpu =>
        obtain ⟨rfl, rfl⟩ : w' = w ∧ i' = j₁ := by simpa [workOf] using hw₁
        simp [hgpu] at hcpu
      | _ => cases hw₁
  have hleaving₂ : Leaving cfg w i.stamp s₂ :=
    Machine.Run.steps_invariant (P := Leaving cfg w i.stamp)
      (fun tr s e t _ hs hst => leaving_step hst hgpu hs) (hrun₁.concat hstep₁) hpath₂ hleaving₁
  have hrun₂ := (hrun₁.concat hstep₁).append hpath₂
  obtain ⟨hpc₂, hstate₂⟩ := working hstep₂ hw₂
  have hholds := held hrun₂ w hstate₂
  have := hleaving₂.leaving
  simp only [hpc₂, hstate₂, reduceCtorEq, exists_false, false_and, or_false] at this
  exact this (hstamp ▸ hholds)

end Solo

/-! ### Pool mining -/

namespace StratumMiner

variable {ι : Type} [DecidableEq ι]

/-- A worker on a device owes a look before each batch, a worker on a CPU after 128 nonces. -/
def Pc.Due (gpu : Bool) (pc : Pc) : Prop := pc = .poll ∨ pc = .stopped ∨ gpu = true ∧ pc = .top

def poller (cfg : Config ι) (w : ι) (m : Miner ι) : Poller State :=
  ⟨m.slot, (m.workers w).cached, (m.workers w).unit, (m.workers w).pc.Due (cfg.gpu w)⟩

def swaps : Event ι → Prop
  | .job _ => True
  | _ => False

/-- The instance a worker works on. -/
def workOf (w : ι) : Event ι → Option (Instance State)
  | .batch w' i _ | .hash w' i _ => if w' = w then some i else none
  | _ => none

theorem poller_set (cfg : Config ι) (m : Miner ι) (w : ι) (x : Worker) :
    poller cfg w (m.set w x) = ⟨m.slot, x.cached, x.unit, x.pc.Due (cfg.gpu w)⟩ := by
  rw [poller, Miner.set_workers_self]
  rfl

/-- Only the pool changes the slot, and what it puts there is a job. -/
theorem slot_cases {cfg : Config ι} {m m' : Miner ι} {e : Event ι} (h : Step cfg m e m') :
    (∃ state, m'.slot = m.slot.swap (some state)) ∨ m'.slot = m.slot := by
  cases h with
  | job job state => exact Or.inl ⟨state, rfl⟩
  | _ => exact Or.inr rfl

theorem swap_of_swaps {cfg : Config ι} {m m' : Miner ι} {e : Event ι} (h : Step cfg m e m')
    (hs : swaps e) : ∃ val, m'.slot = m.slot.swap val := by
  cases h with
  | job job state => exact ⟨some state, rfl⟩
  | _ => cases hs

/-- What a worker holds it has seen last; while no job has come it has seen none. -/
structure Held (slot : Slot State) (x : Worker) : Prop where
  holds : ∀ {i}, x.state = some i → Slot.Holds x.cached i.stamp
  empty : slot.inner = none → x.state = none ∧ x.cached = none

theorem Held.withNonce {slot : Slot State} {x y : Worker} (h : Held slot x) {i : Instance State}
    {nonce : U64} (hx : x.state = some i) (hy : y.state = some (i.withNonce nonce))
    (hc : y.cached = x.cached) : Held slot y := by
  constructor
  · intro j hj
    obtain rfl : i.withNonce nonce = j := Option.some.inj (hy.symm.trans hj)
    rw [hc]
    show Slot.Holds x.cached i.stamp
    exact h.holds hx
  · intro hnone
    simp [(h.empty hnone).1] at hx

/-- After a look at the slot; a slot that has changed is not empty. -/
theorem Held.look {slot : Slot State} {x y : Worker} (h : Held slot x)
    (hsame : ¬ slot.Changed x.cached → y.state = x.state)
    (hnew : ∀ {i}, slot.Changed x.cached → slot.inner = some i → y.state = some i)
    (hc : y.cached = slot.getChanged x.cached) : Held slot y := by
  by_cases hchanged : slot.Changed x.cached
  case neg =>
    have hs := hsame hchanged
    rw [Slot.getChanged, if_neg hchanged] at hc
    refine ⟨fun hi => ?_, fun hnone => ?_⟩
    · rw [hc]
      exact h.holds (hs ▸ hi)
    · rw [hs, hc]
      exact h.empty hnone
  case pos =>
    rw [Slot.getChanged_of_changed hchanged] at hc
    cases hinner : slot.inner with
    | none => simp [Slot.Changed, hinner, (h.empty hinner).2] at hchanged
    | some i =>
      refine ⟨fun hj => ⟨i, hc.trans hinner, ?_⟩, fun hnone => by simp [hinner] at hnone⟩
      rw [Option.some.inj ((hnew hchanged hinner).symm.trans hj)]

theorem held {cfg : Config ι} {tr : List (Miner ι × Event ι)} {m : Miner ι}
    (h : (machine cfg).Run tr m) (w : ι) : Held m.slot (m.workers w) := by
  refine Machine.Run.invariant (P := fun m => Held m.slot (m.workers w)) ?_ ?_ h
  · intro m hm
    rw [hm.worker_eq w]
    exact ⟨fun hi => (by cases hi), fun _ => ⟨rfl, rfl⟩⟩
  · intro m e m' hheld hstep
    by_cases hw : e.worker = some w
    -- a job that arrives fills the slot and leaves the worker what it holds
    case neg =>
      rw [hstep.workers_eq hw]
      refine ⟨hheld.holds, fun hnone => ?_⟩
      obtain ⟨state, hslot⟩ | hslot := slot_cases hstep
      · rw [hslot] at hnone
        cases hnone
      · rw [hslot] at hnone
        exact hheld.empty hnone
    case pos =>
      cases hstep with
      | job | close => cases hw
      | wait w' hpc hstate hchanged =>
        obtain rfl : w' = w := Option.some.inj hw
        rw [Miner.set_workers_self]
        exact ⟨fun hi => ⟨_, hi, rfl⟩, fun hnone => ⟨hnone, hnone⟩⟩
      | pollGpu w' =>
        obtain rfl : w' = w := Option.some.inj hw
        rw [Miner.set_workers_self]
        exact hheld.look (fun h => if_neg h) (fun h hi => by simp [h, hi]) rfl
      | pollCpu w' =>
        obtain rfl : w' = w := Option.some.inj hw
        rw [Miner.set_workers_self]
        exact hheld.look (fun h => if_neg h) (fun h hi => by simp [h, hi]) rfl
      -- only the nonce of the state changes
      | hitOffered w' j hit rest pow hgpu hpc hstate | hitRejected w' j hit rest hgpu hpc hstate
      | hashOffered w' j nonce pow hgpu hpc hstate | hashRejected w' j nonce hgpu hpc hstate =>
        obtain rfl : w' = w := Option.some.inj hw
        rw [Miner.set_workers_self]
        exact hheld.withNonce hstate rfl rfl
      | _ w' =>
        obtain rfl : w' = w := Option.some.inj hw
        rw [Miner.set_workers_self]
        exact ⟨hheld.holds, hheld.empty⟩

theorem poller_step {cfg : Config ι} {m m' : Miner ι} {e : Event ι} (h : Step cfg m e m')
    (w : ι) : Poller.Step (poller cfg w m) (poller cfg w m') := by
  by_cases hw : e.worker = some w
  case neg =>
    have hworkers := h.workers_eq hw
    rw [poller, poller, hworkers]
    obtain ⟨state, hslot⟩ | hslot := slot_cases h
    · rw [hslot]
      exact .swap (poller cfg w m) (some state)
    · rw [hslot]
      exact .rest (poller cfg w m) _ id
  case pos =>
    cases h with
    | job | close => cases hw
    | wait w' hpc hstate hchanged =>
      obtain rfl : w' = w := Option.some.inj hw
      rw [poller_set, ← Slot.getChanged_of_changed hchanged]
      exact .look (poller cfg w' m) _
    | pollGpu w' | pollCpu w' =>
      obtain rfl : w' = w := Option.some.inj hw
      rw [poller_set]
      exact .look (poller cfg w' m) _
    | hitsDone w' hgpu hpc =>
      obtain rfl : w' = w := Option.some.inj hw
      rw [poller_set]
      exact .finish (poller cfg w' m) _ (Or.inr (Or.inr ⟨hgpu, rfl⟩))
    | advanceLast w' hcpu hpc =>
      obtain rfl : w' = w := Option.some.inj hw
      rw [poller_set]
      exact .finish (poller cfg w' m) _ (Or.inl rfl)
    | begin w' i hpc hstate =>
      obtain rfl : w' = w := Option.some.inj hw
      rw [poller_set]
      refine .rest (poller cfg w' m) _ ?_
      rintro (htop | htop | ⟨hgpu, -⟩)
      · simp [hpc] at htop
      · simp [hpc] at htop
      · exact Or.inl (if_pos hgpu)
    | _ w' =>
      obtain rfl : w' = w := Option.some.inj hw
      rw [poller_set]
      exact .rest (poller cfg w' m) _ (by simp [poller, Pc.Due, *])

/-- A worker works on the instance it holds. -/
theorem working {cfg : Config ι} {m m' : Miner ι} {e : Event ι} (h : Step cfg m e m') {w : ι}
    {j : Instance State} (hj : workOf w e = some j) :
    (m.workers w).pc = .work ∧ (m.workers w).state = some j := by
  cases h with
  | batch w' i hits hgpu hpc hstate | hashOffered w' i nonce pow hgpu hpc hstate
  | hashRejected w' i nonce hgpu hpc hstate =>
    obtain ⟨rfl, rfl⟩ : w' = w ∧ i = j := by simpa [workOf] using hj
    exact ⟨hpc, hstate⟩
  | _ => cases hj

theorem prompt {cfg : Config ι} (w : ι) {tr : List (Miner ι × Event ι)} {m : Miner ι}
    (h : (machine cfg).Run tr m) :
    Prompt (poller cfg w) swaps (fun e => (workOf w e).isSome) (workOf w) tr := by
  refine prompt_of_poller (fun m (hm : Initial m) => hm.slot_eq)
    (fun _ _ _ _ _ hstep => poller_step hstep w) (fun _ _ _ hstep hs => swap_of_swaps hstep hs) ?_ h
  intro tr m e m' j hrun hstep hj
  obtain ⟨hpc, hstate⟩ := working hstep hj
  refine ⟨?_, (held hrun w).holds hstate⟩
  simp [poller, Pc.Due, hpc]

end StratumMiner

/-! ### Pool mining for two pools -/

namespace Devfund

/-- The looks the scheduler owes before a batch for a pool. -/
def Pc.Due (pc : Pc) : Pool → Prop
  | .main => pc = .top ∨ pc = .stopped ∨ pc = .poll .main
  | .dev => pc = .top ∨ pc = .stopped ∨ pc = .poll .main ∨ pc = .poll .dev

def poller (pool : Pool) (s : Scheduler) : Poller State :=
  ⟨s.slots pool, s.cached pool, s.unit, s.pc.Due pool⟩

def swaps (pool : Pool) : Event → Prop
  | .job pool' _ => pool' = pool
  | _ => False

/-- The instance a batch is run on, when it is one of the pool's. -/
def workOf (pool : Pool) : Event → Option (Instance State)
  | .batch pool' i _ => if pool' = pool then some i else none
  | _ => none

/-- What is held for a pool has been seen last in its slot. -/
theorem held {cfg : Config} {tr : List (Scheduler × Event)} {s : Scheduler}
    (h : (machine cfg).Run tr s) (pool : Pool) {i : Instance State} (hi : s.states pool = some i) :
    Slot.Holds (s.cached pool) i.stamp := by
  revert i
  refine Machine.Run.invariant (P := fun s => ∀ {i}, s.states pool = some i →
    Slot.Holds (s.cached pool) i.stamp) ?_ ?_ h
  · intro s hs i hi
    simp [hs.states_eq] at hi
  · intro s e s' hheld hstep i hi
    cases hstep with
    | wait =>
      by_cases hpool : pool = .main
      · subst hpool
        simp only [Function.update_self] at hi ⊢
        exact ⟨i, hi, rfl⟩
      · simp only [Function.update_of_ne hpool] at hi ⊢
        exact hheld hi
    | poll pool' =>
      by_cases hpool : pool = pool'
      · subst hpool
        simp only [Function.update_self] at hi ⊢
        exact Slot.holds_getChanged hheld hi
      · simp only [Function.update_of_ne hpool] at hi ⊢
        exact hheld hi
    -- only the nonce of the state changes
    | hitRejected pool' j hit rest hpc hstate | hitEarly pool' j hit rest pow now hpc hstate
    | hitSubmit pool' j hit rest pow now jobId hpc hstate
    | hitFailed pool' j hit rest pow now hpc hstate =>
      by_cases hpool : pool = pool'
      · subst hpool
        simp only [Function.update_self] at hi
        obtain rfl := Option.some.inj hi
        show Slot.Holds _ j.stamp
        exact hheld hstate
      · simp only [Function.update_of_ne hpool] at hi
        exact hheld hi
    | _ => exact hheld hi

theorem poller_step {cfg : Config} {s s' : Scheduler} {e : Event} (h : Step cfg s e s')
    (pool : Pool) : Poller.Step (poller pool s) (poller pool s') := by
  cases h with
  | job pool' job state =>
    by_cases hpool : pool = pool'
    · subst hpool
      simp only [poller, Function.update_self]
      exact .swap (poller pool s) (some state)
    · simp only [poller, Function.update_of_ne hpool]
      exact .rest (poller pool s) _ id
  | wait hpc hstate hchanged =>
    by_cases hpool : pool = .main
    · subst hpool
      simp only [poller, Function.update_self]
      rw [← Slot.getChanged_of_changed hchanged]
      exact .look (poller .main s) _
    · obtain rfl : pool = .dev := by cases pool <;> simp_all
      simp only [poller, Function.update_of_ne hpool]
      exact .rest (poller .dev s) _ (fun _ => by simp [Pc.Due])
  | poll pool' hpc =>
    by_cases hpool : pool = pool'
    · subst hpool
      simp only [poller, Function.update_self]
      exact .look (poller pool s) _
    · simp only [poller, Function.update_of_ne hpool]
      exact .rest (poller pool s) _
        (by cases pool <;> cases pool' <;> simp_all [poller, Pc.Due, Pool.next])
  | done pool' hpc =>
    exact .finish (poller pool s) _ (by cases pool <;> simp [Pc.Due])
  | shutdown pool' hpc =>
    exact .finish (poller pool s) _ (by cases pool <;> simp [Pc.Due])
  | _ => exact .rest (poller pool s) _ (by cases pool <;> simp [poller, Pc.Due, *])

theorem swap_of_swaps {cfg : Config} {s s' : Scheduler} {e : Event} (h : Step cfg s e s')
    {pool : Pool} (hs : swaps pool e) : ∃ val, s'.slots pool = (s.slots pool).swap val := by
  cases h with
  | job pool' job state =>
    obtain rfl : pool' = pool := hs
    exact ⟨some state, Function.update_self ..⟩
  | _ => cases hs

/-- The scheduler runs a batch for a pool. -/
def Event.IsBatch : Event → Prop
  | .batch _ _ _ => True
  | _ => False

theorem working {cfg : Config} {s s' : Scheduler} {e : Event} (h : Step cfg s e s') {pool : Pool}
    {j : Instance State} (hj : workOf pool e = some j) :
    s.pc = .work pool ∧ s.states pool = some j := by
  cases h with
  | batch pool' i hits hpc hstate =>
    obtain ⟨rfl, rfl⟩ : pool' = pool ∧ i = j := by simpa [workOf] using hj
    exact ⟨hpc, hstate⟩
  | _ => cases hj

theorem prompt {cfg : Config} (pool : Pool) {tr : List (Scheduler × Event)} {s : Scheduler}
    (h : (machine cfg).Run tr s) :
    Prompt (poller pool) (swaps pool) Event.IsBatch (workOf pool) tr := by
  refine prompt_of_poller (fun s (hs : Initial s) => by simp [poller, hs.slots_eq])
    (fun _ _ _ _ _ hstep => poller_step hstep pool)
    (fun _ _ _ hstep hs => swap_of_swaps hstep hs) ?_ h
  intro tr s e s' j hrun hstep hj
  obtain ⟨hpc, hstate⟩ := working hstep hj
  refine ⟨?_, held hrun pool hstate⟩
  cases pool <;> simp [poller, Pc.Due, hpc]

end Devfund

/-! ### A replaced template -/

namespace Solo

open State

/-- One worker with a device. -/
def stuckConfig : Config Unit := ⟨sampleCrates, fun _ => 64, fun _ => true, 1⟩

def stuckStart : Miner Unit where
  slot := .empty
  solvedStateId := UNSOLVED
  currentStateId := 0
  isSynced := true
  listener := .idle
  channelOpen := true
  workers := fun _ => ⟨.top, none, none, 0, 0⟩

/-- The template is replaced, and the worker runs two batches without a hit on the old one. -/
theorem stuck :
    ∃ pre m₀ m₁ mid' m₂ m₃, (machine stuckConfig).Run
        (pre ++ (m₀, .swap (some laterState)) :: ([] ++ (m₁, .batch () ⟨0, sampleState⟩ [])
          :: (mid' ++ (m₂, .batch () ⟨0, sampleState⟩ []) :: []))) m₃
      ∧ m₀.slot.inner = some ⟨0, sampleState⟩
      ∧ (m₁.workers ()).unit < (m₂.workers ()).unit := by
  obtain ⟨tr₁, s₁, h₁, -⟩ := deliver_steps stuckConfig (m := stuckStart) rfl
    (mem_new.mpr ⟨_, sampleState_builtFrom⟩)
  obtain ⟨tr₂, h₂, -⟩ := fetch_steps stuckConfig (m := stuckStart.deliver sampleState)
    (w := ()) (i := ⟨0, sampleState⟩) rfl rfl rfl (by decide) (by decide)
  obtain ⟨tr₃, s₃, h₃, hslot, -⟩ := deliver_steps stuckConfig (b := laterBlock)
    (m := (stuckStart.deliver sampleState).fetch () ⟨0, sampleState⟩) rfl
    (mem_new.mpr ⟨_, laterState_builtFrom⟩)
  obtain ⟨h₃, hswap⟩ := Machine.Steps.concat_iff.mp h₃
  have hbatches := Machine.Steps.cons (M := machine stuckConfig)
    (Step.batch (((stuckStart.deliver sampleState).fetch () ⟨0, sampleState⟩).deliver laterState) ()
      ⟨0, sampleState⟩ [] rfl rfl rfl)
    (.cons (Step.finishEmpty _ () rfl rfl)
      (.cons (Step.topState _ () ⟨0, sampleState⟩ rfl rfl)
        (.cons (Step.checkUnsolved _ () ⟨0, sampleState⟩ rfl rfl (by decide))
          (.cons (Step.batch _ () ⟨0, sampleState⟩ [] rfl rfl rfl) .refl))))
  have hrun := ((h₁.append h₂).append h₃).append (.cons hswap hbatches)
  refine ⟨_, s₃, _, [_, _, _], _, _,
    ⟨stuckStart, ⟨rfl, rfl, rfl, rfl, rfl, rfl, fun _ => rfl⟩, hrun⟩, ?_, ?_⟩
  · rw [hslot]
    rfl
  · exact Nat.zero_lt_one

end Solo

/-- The worker runs a batch without a hit on a template that has not been replaced. -/
theorem Solo.unstuck_run :
    ∃ tr m, (machine stuckConfig).Run tr m ∧ (∃ s i hits, (s, .batch () i hits) ∈ tr)
      ∧ Unstuck stuckConfig () tr := by
  have hsteps := Machine.Steps.cons (M := machine stuckConfig)
    (Step.template stuckStart _ State.sampleState rfl
      (State.mem_new.mpr ⟨_, State.sampleState_builtFrom⟩))
    (.cons (Step.store _ (some State.sampleState) rfl)
      (.cons (Step.swap _ (some State.sampleState) rfl)
        (.cons (Step.topWait _ () rfl rfl (by decide))
          (.cons (Step.checkUnsolved _ () ⟨0, State.sampleState⟩ rfl rfl (by decide))
            (.cons (Step.batch _ () ⟨0, State.sampleState⟩ [] rfl rfl rfl) .refl)))))
  refine ⟨_, _, ⟨stuckStart, ⟨rfl, rfl, rfl, rfl, rfl, rfl, fun _ => rfl⟩, hsteps⟩,
    ⟨_, _, _, .tail _ (.tail _ (.tail _ (.tail _ (.tail _ (.head _)))))⟩, ?_⟩
  rintro pre m i hits post htr ⟨m', e, i', hmem, hs, hinner, -⟩
  have hmem' := htr ▸ List.mem_append_left ((m, Event.batch () i hits) :: post) hmem
  simp only [List.mem_cons, List.not_mem_nil, or_false, Prod.mk.injEq] at hmem'
  obtain ⟨-, rfl⟩ | ⟨-, rfl⟩ | ⟨rfl, rfl⟩ | ⟨-, rfl⟩ | ⟨-, rfl⟩ | ⟨-, rfl⟩ := hmem'
  · cases hs
  · cases hs
  · cases hinner
  · cases hs
  · cases hs
  · cases hs

/-! ### All workers -/

/-- Every run of every worker is prompt, but for solo workers with a device: their runs are
prompt if every batch on an instance that has been replaced finds a block. -/
theorem workers_prompt {ι : Type} [DecidableEq ι] (cfg : Config ι) (cfg' : Devfund.Config) :
    (∀ w tr m, (Solo.machine cfg).Run tr m → (cfg.gpu w = true → Solo.Unstuck cfg w tr) →
      Prompt (Solo.poller w) Solo.swaps (fun e => (Solo.workOf w e).isSome) (Solo.workOf w) tr)
    ∧ (∀ w tr m, (StratumMiner.machine cfg).Run tr m →
      Prompt (StratumMiner.poller cfg w) StratumMiner.swaps
        (fun e => (StratumMiner.workOf w e).isSome) (StratumMiner.workOf w) tr)
    ∧ ∀ pool tr s, (Devfund.machine cfg').Run tr s →
      Prompt (Devfund.poller pool) (Devfund.swaps pool) Devfund.Event.IsBatch
        (Devfund.workOf pool) tr := by
  refine ⟨fun w tr m hrun hunstuck => ?_, fun w tr m hrun => StratumMiner.prompt w hrun,
    fun pool tr s hrun => Devfund.prompt pool hrun⟩
  cases hgpu : cfg.gpu w with
  | false => exact Solo.prompt_cpu hgpu hrun
  | true => exact Solo.prompt_gpu hgpu hrun (hunstuck hgpu)

theorem solo_device_works_on_replaced_template :
    ¬ ∀ (cfg : Config Unit) tr m, (Solo.machine cfg).Run tr m →
      Prompt (Solo.poller ()) Solo.swaps (fun e => (Solo.workOf () e).isSome)
        (Solo.workOf ()) tr := by
  intro hprompt
  obtain ⟨pre, m₀, m₁, mid', m₂, m₃, hrun, hinner, hunit⟩ := Solo.stuck
  exact hprompt _ _ _ hrun pre m₀ _ [] m₁ _ mid' m₂ _ [] ⟨0, State.sampleState⟩
    ⟨0, State.sampleState⟩ rfl trivial hinner rfl rfl hunit rfl

theorem sample_workers_prompt :
    (∃ tr m, (Solo.machine Solo.stuckConfig).Run tr m ∧ (∃ s i hits, (s, .batch () i hits) ∈ tr)
      ∧ Prompt (Solo.poller ()) Solo.swaps (fun e => (Solo.workOf () e).isSome) (Solo.workOf ()) tr)
    ∧ (∃ tr m, (StratumMiner.machine StratumMiner.sampleConfig).Run tr m
      ∧ Prompt (StratumMiner.poller StratumMiner.sampleConfig ()) StratumMiner.swaps
        (fun e => (StratumMiner.workOf () e).isSome) (StratumMiner.workOf ()) tr)
    ∧ ∃ tr s, (Devfund.machine Devfund.sampleConfig).Run tr s
      ∧ Prompt (Devfund.poller .main) (Devfund.swaps .main) Devfund.Event.IsBatch
        (Devfund.workOf .main) tr := by
  refine ⟨?_, ?_, ?_⟩
  · obtain ⟨tr, m, hrun, hbatch, hunstuck⟩ := Solo.unstuck_run
    exact ⟨tr, m, hrun, hbatch,
      (workers_prompt Solo.stuckConfig Devfund.sampleConfig).1 () tr m hrun fun _ => hunstuck⟩
  · obtain ⟨tr, m, m', hrun, -⟩ := StratumMiner.sample_run
    exact ⟨tr, m, hrun,
      (workers_prompt StratumMiner.sampleConfig Devfund.sampleConfig).2.1 () tr m hrun⟩
  · obtain ⟨tr, s, s', hrun, -⟩ := Devfund.sample_run
    exact ⟨tr, s, hrun,
      (workers_prompt Solo.stuckConfig Devfund.sampleConfig).2.2 .main tr s hrun⟩
