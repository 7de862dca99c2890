/-
Pool mining on a device for two pools (`GpuStratumDevfundManager` of `src/miner.rs`).

One thread works for the user's pool and, in every hundredth batch, for the
development fund's.  Each pool has its own slot, its own channel and its own last
time of submission; the thread looks at both slots before each batch.

* `submitHitOffer` — the hits that are submitted, if it is not too early;
* `Step` — the scheduler loop;
* `submit_checked` — what is submitted belongs to the last batch and has been checked.
-/
import VelkarMiner.StratumMiner

open Rust

/-- The check of `submit_hit`. -/
def submitHitOffer (c : Crates) (s : State) (hit : GpuHit) : Option Uint256 :=
  let s := { s with nonce := hit.nonce }
  let consensusPow := s.calculatePow c
  if s.shareTarget < consensusPow then none else some consensusPow

/-- The two checks of a hit agree. -/
theorem submitHitOffer_eq_gpuOffer (c : Crates) (s : State) (hit : GpuHit) :
    submitHitOffer c s hit = gpuOffer c s hit := by
  simp only [submitHitOffer, gpuOffer]
  by_cases hle : ({ s with nonce := hit.nonce } : State).calculatePow c ≤ s.shareTarget
  · rw [if_pos hle, if_neg fun hlt => Uint256.not_le.mpr hlt hle]
  · rw [if_neg hle, if_pos (Uint256.not_le.mp hle)]

namespace Devfund

inductive Pool where
  | main
  | dev
deriving DecidableEq

/-- Where the scheduler is in its loop.  The lists are the hits it has not looked at yet. -/
inductive Pc where
  | top
  | poll (pool : Pool)
  | choose
  | work (pool : Pool)
  | hits (pool : Pool) (rest : List GpuHit)
  | stopped

/-- The slots of the pools, and the scheduler.  `unit` counts the batches it has finished;
`batchIndex` wraps. -/
structure Scheduler where
  slots : Pool → Slot State
  currentStateId : Pool → U64
  channelOpen : Pool → Bool
  pc : Pc
  states : Pool → Option (Instance State)
  cached : Pool → Option (Instance State)
  lastSubmit : Pool → U64
  nonce : U64
  batchIndex : U64
  unit : ℕ

inductive Event where
  | job (pool : Pool) (state : State)
  | close (pool : Pool)
  | read (pool : Pool)
  | batch (pool : Pool) (i : Instance State) (hits : List GpuHit)
  | submit (pool : Pool) (jobId nonce : Str)
  | go

structure Config where
  crates : Crates
  computeRank : Matrix64 → ℕ
  batchSize : U64

def DEVFUND_BATCH_PERIOD : U64 := 100

/-- `use_devfund`. -/
def Scheduler.UseDevfund (s : Scheduler) : Prop :=
  s.batchIndex % DEVFUND_BATCH_PERIOD = DEVFUND_BATCH_PERIOD - 1 ∧ (s.states .dev).isSome

/-- The slots are looked at in this order. -/
def Pool.next : Pool → Pc
  | .main => .poll .dev
  | .dev => .choose

open Function in
inductive Step (cfg : Config) : Scheduler → Event → Scheduler → Prop
  | job (s : Scheduler) (pool : Pool) (job : StratumJob) (state : State)
      (hstate : state ∈ job.state cfg.computeRank (s.currentStateId pool)) :
      Step cfg s (.job pool state)
        { s with currentStateId := update s.currentStateId pool (s.currentStateId pool + 1)
                 slots := update s.slots pool ((s.slots pool).swap (some state)) }
  | close (s : Scheduler) (pool : Pool) :
      Step cfg s (.close pool) { s with channelOpen := update s.channelOpen pool false }
  -- the head of the loop: `wait_for_change` without a job of the user's pool
  | wait (s : Scheduler) (hpc : s.pc = .top) (hstate : s.states .main = none)
      (hchanged : (s.slots .main).Changed (s.cached .main)) :
      Step cfg s (.read .main)
        { s with pc := .poll .main
                 states := update s.states .main (s.slots .main).inner
                 cached := update s.cached .main (s.slots .main).inner }
  | begin (s : Scheduler) (i : Instance State) (hpc : s.pc = .top)
      (hstate : s.states .main = some i) : Step cfg s .go { s with pc := .poll .main }
  | poll (s : Scheduler) (pool : Pool) (hpc : s.pc = .poll pool) :
      Step cfg s (.read pool)
        { s with
          pc := pool.next
          states := update s.states pool (if (s.slots pool).Changed (s.cached pool) then
            (s.slots pool).inner else s.states pool)
          cached := update s.cached pool ((s.slots pool).getChanged (s.cached pool)) }
  | chooseDev (s : Scheduler) (hpc : s.pc = .choose) (huse : s.UseDevfund) :
      Step cfg s .go { s with pc := .work .dev }
  | chooseMain (s : Scheduler) (i : Instance State) (hpc : s.pc = .choose)
      (huse : ¬ s.UseDevfund) (hstate : s.states .main = some i) :
      Step cfg s .go { s with pc := .work .main }
  | chooseNone (s : Scheduler) (hpc : s.pc = .choose) (huse : ¬ s.UseDevfund)
      (hstate : s.states .main = none) : Step cfg s .go { s with pc := .top }
  | batch (s : Scheduler) (pool : Pool) (i : Instance State) (hits : List GpuHit)
      (hpc : s.pc = .work pool) (hstate : s.states pool = some i) :
      Step cfg s (.batch pool i hits)
        { s with pc := .hits pool hits, nonce := s.nonce + cfg.batchSize }
  | searchFailed (s : Scheduler) (pool : Pool) (hpc : s.pc = .work pool) :
      Step cfg s .go { s with pc := .stopped }
  -- `submit_hit`; the exchange on a cell of the thread's own cannot fail
  | hitRejected (s : Scheduler) (pool : Pool) (i : Instance State) (hit : GpuHit)
      (rest : List GpuHit) (hpc : s.pc = .hits pool (hit :: rest)) (hstate : s.states pool = some i)
      (hoffer : submitHitOffer cfg.crates i.value hit = none) :
      Step cfg s .go { s with
        pc := .hits pool rest, states := update s.states pool (some (i.withNonce hit.nonce)) }
  | hitEarly (s : Scheduler) (pool : Pool) (i : Instance State) (hit : GpuHit) (rest : List GpuHit)
      (pow : Uint256) (now : U64) (hpc : s.pc = .hits pool (hit :: rest))
      (hstate : s.states pool = some i)
      (hoffer : submitHitOffer cfg.crates i.value hit = some pow)
      (hearly : TooEarly now (s.lastSubmit pool)) :
      Step cfg s .go { s with
        pc := .hits pool rest, states := update s.states pool (some (i.withNonce hit.nonce)) }
  | hitSubmit (s : Scheduler) (pool : Pool) (i : Instance State) (hit : GpuHit) (rest : List GpuHit)
      (pow : Uint256) (now : U64) (jobId : Str) (hpc : s.pc = .hits pool (hit :: rest))
      (hstate : s.states pool = some i)
      (hoffer : submitHitOffer cfg.crates i.value hit = some pow)
      (hdue : ¬ TooEarly now (s.lastSubmit pool)) (hjob : i.value.jobId = some jobId)
      (hopen : s.channelOpen pool = true) :
      Step cfg s (.submit pool jobId (fmtHex 16 hit.nonce.toNat)) { s with
        pc := .hits pool rest, states := update s.states pool (some (i.withNonce hit.nonce))
        lastSubmit := update s.lastSubmit pool now }
  | hitFailed (s : Scheduler) (pool : Pool) (i : Instance State) (hit : GpuHit) (rest : List GpuHit)
      (pow : Uint256) (now : U64) (hpc : s.pc = .hits pool (hit :: rest))
      (hstate : s.states pool = some i)
      (hoffer : submitHitOffer cfg.crates i.value hit = some pow)
      (hdue : ¬ TooEarly now (s.lastSubmit pool))
      (hfail : i.value.jobId = none ∨ s.channelOpen pool = false) :
      Step cfg s .go { s with
        pc := .stopped, states := update s.states pool (some (i.withNonce hit.nonce))
        lastSubmit := update s.lastSubmit pool now }
  | done (s : Scheduler) (pool : Pool) (hpc : s.pc = .hits pool []) :
      Step cfg s .go { s with pc := .top, batchIndex := s.batchIndex + 1, unit := s.unit + 1 }
  | shutdown (s : Scheduler) (pool : Pool) (hpc : s.pc = .hits pool []) :
      Step cfg s .go { s with pc := .stopped, batchIndex := s.batchIndex + 1, unit := s.unit + 1 }

/-- A scheduler before its first job, with any first nonce. -/
structure Initial (s : Scheduler) : Prop where
  slots_eq : s.slots = fun _ => Slot.empty
  currentStateId_eq : s.currentStateId = fun _ => 0
  channelOpen_eq : s.channelOpen = fun _ => true
  pc_eq : s.pc = .top
  states_eq : s.states = fun _ => none
  cached_eq : s.cached = fun _ => none
  lastSubmit_eq : s.lastSubmit = fun _ => 0
  batchIndex_eq : s.batchIndex = 0
  unit_eq : s.unit = 0

def machine (cfg : Config) : Machine Scheduler Event := ⟨Initial, Step cfg⟩

/-! ### Shares -/

/-- The batch that has been run. -/
def batchOf : Event → Option (Pool × Instance State × List GpuHit)
  | .batch pool i hits => some (pool, i, hits)
  | _ => none

/-- At the hits of a batch the job of the batch is held. -/
def OnBatch (pool : Pool) (i : Instance State) (hits : List GpuHit) (s : Scheduler) : Prop :=
  match s.pc with
  | .hits pool' rest =>
    pool' = pool ∧ rest ⊆ hits ∧ ∃ nonce, s.states pool = some (i.withNonce nonce)
  | _ => True

theorem onBatch_step {cfg : Config} {s s' : Scheduler} {e : Event} (h : Step cfg s e s') :
    (∃ pool i hits, batchOf e = some (pool, i, hits) ∧ OnBatch pool i hits s')
      ∨ batchOf e = none ∧ ∀ pool i hits, OnBatch pool i hits s → OnBatch pool i hits s' := by
  cases h with
  | batch pool i hits hpc hstate =>
    left
    exact ⟨pool, i, hits, rfl, rfl, fun _ hx => hx, i.value.nonce, hstate⟩
  | hitRejected pool j hit rest hpc hstate | hitEarly pool j hit rest pow now hpc hstate
  | hitSubmit pool j hit rest pow now jobId hpc hstate =>
    right
    refine ⟨rfl, fun pool' i hits hon => ?_⟩
    simp only [OnBatch, hpc] at hon
    obtain ⟨rfl, hrest, nonce, hj⟩ := hon
    obtain rfl : j = i.withNonce nonce := Option.some.inj (hstate.symm.trans hj)
    exact ⟨rfl, fun x hx => hrest (by simp [hx]), hit.nonce, Function.update_self ..⟩
  | job | close =>
    exact Or.inr ⟨rfl, fun _ _ _ hon => hon⟩
  | poll pool hpc =>
    exact Or.inr ⟨rfl, fun _ _ _ _ => by cases pool <;> exact trivial⟩
  | _ => exact Or.inr ⟨rfl, fun _ _ _ _ => trivial⟩

/-- The job of an instance has been delivered to the slot of a pool. -/
def Delivered (tr : List (Scheduler × Event)) (pool : Pool) (i : Instance State) : Prop :=
  ∃ s state nonce, (s, Event.job pool state) ∈ tr
    ∧ i = ⟨(s.slots pool).swaps, { state with nonce := nonce }⟩

theorem Delivered.withNonce {tr : List (Scheduler × Event)} {pool : Pool} {i : Instance State}
    (h : Delivered tr pool i) (nonce : U64) : Delivered tr pool (i.withNonce nonce) := by
  obtain ⟨s, state, n, hmem, rfl⟩ := h
  exact ⟨s, state, nonce, hmem, rfl⟩

/-- Whatever is in a slot or held for a pool has been delivered for it. -/
structure AllDelivered (tr : List (Scheduler × Event)) (s : Scheduler) : Prop where
  slot : ∀ pool, ∀ i ∈ (s.slots pool).inner, Delivered tr pool i
  held : ∀ pool, ∀ i ∈ s.states pool, Delivered tr pool i

/-- Only a delivery changes a slot. -/
theorem slots_cases {cfg : Config} {s s' : Scheduler} {e : Event} (h : Step cfg s e s')
    (pool : Pool) :
    s'.slots pool = s.slots pool
      ∨ ∃ state, e = .job pool state ∧ s'.slots pool = (s.slots pool).swap (some state) := by
  cases h with
  | job pool' job state hstate =>
    by_cases hpool : pool = pool'
    · subst hpool
      exact Or.inr ⟨state, rfl, Function.update_self ..⟩
    · exact Or.inl (Function.update_of_ne hpool ..)
  | _ => exact Or.inl rfl

/-- A held job comes from the slot, or had another nonce before. -/
theorem held_cases {cfg : Config} {s s' : Scheduler} {e : Event} (h : Step cfg s e s') {pool : Pool}
    {i : Instance State} (hi : i ∈ s'.states pool) :
    ∃ j nonce, (j ∈ (s.slots pool).inner ∨ j ∈ s.states pool) ∧ i = j.withNonce nonce := by
  have hkeep : i ∈ s.states pool →
      ∃ j nonce, (j ∈ (s.slots pool).inner ∨ j ∈ s.states pool) ∧ i = j.withNonce nonce :=
    fun h => ⟨i, i.value.nonce, Or.inr h, rfl⟩
  have hslot : i ∈ (s.slots pool).inner →
      ∃ j nonce, (j ∈ (s.slots pool).inner ∨ j ∈ s.states pool) ∧ i = j.withNonce nonce :=
    fun h => ⟨i, i.value.nonce, Or.inl h, rfl⟩
  cases h with
  | wait =>
    by_cases hpool : pool = .main
    · subst hpool
      exact hslot (by simpa using hi)
    · exact hkeep (by simpa [Function.update_of_ne hpool] using hi)
  | poll pool' hpc =>
    by_cases hpool : pool = pool'
    · subst hpool
      simp only [Function.update_self] at hi
      split at hi
      · exact hslot hi
      · exact hkeep hi
    · exact hkeep (by simpa [Function.update_of_ne hpool] using hi)
  | hitRejected pool' j hit rest hpc hstate | hitEarly pool' j hit rest pow now hpc hstate
  | hitSubmit pool' j hit rest pow now jobId hpc hstate
  | hitFailed pool' j hit rest pow now hpc hstate =>
    by_cases hpool : pool = pool'
    · subst hpool
      obtain rfl : j.withNonce hit.nonce = i := by simpa using hi
      exact ⟨j, hit.nonce, Or.inr hstate, rfl⟩
    · exact hkeep (by simpa [Function.update_of_ne hpool] using hi)
  | _ => exact hkeep hi

theorem allDelivered {cfg : Config} {tr : List (Scheduler × Event)} {s : Scheduler}
    (h : (machine cfg).Run tr s) : AllDelivered tr s := by
  refine Machine.Run.induction (P := AllDelivered) ?_ ?_ h
  · intro s hs
    constructor
    · intro pool i hi
      simp [hs.slots_eq, Slot.empty] at hi
    · intro pool i hi
      simp [hs.states_eq] at hi
  · intro tr s e s' _ ih hstep
    have hlater : ∀ {pool i}, Delivered tr pool i → Delivered (tr ++ [(s, e)]) pool i := by
      rintro pool i ⟨s₀, state, nonce, hmem, rfl⟩
      exact ⟨s₀, state, nonce, by simp [hmem], rfl⟩
    constructor
    · intro pool i hi
      obtain hsame | ⟨state, rfl, hswap⟩ := slots_cases hstep pool
      · rw [hsame] at hi
        exact hlater (ih.slot pool i hi)
      · rw [hswap] at hi
        obtain rfl : _ = i := Option.some.inj hi
        exact ⟨s, state, state.nonce, by simp, rfl⟩
    · intro pool i hi
      obtain ⟨j, nonce, hj, rfl⟩ := held_cases hstep hi
      obtain hj | hj := hj
      · exact (hlater (ih.slot pool j hj)).withNonce nonce
      · exact (hlater (ih.held pool j hj)).withNonce nonce

/-- The scheduler is at its last batch; before the first one it is at none. -/
def OnLatest (tr : List (Scheduler × Event)) (s : Scheduler) : Prop :=
  match Machine.latest batchOf tr with
  | some (pool, i, hits) => OnBatch pool i hits s
  | none => ∀ pool i hits, OnBatch pool i hits s

theorem onLatest {cfg : Config} {tr : List (Scheduler × Event)} {s : Scheduler}
    (h : (machine cfg).Run tr s) : OnLatest tr s := by
  refine Machine.Run.induction (P := OnLatest) ?_ ?_ h
  · intro s hs pool i hits
    rw [OnBatch, hs.pc_eq]
    trivial
  · intro tr s e s' _ ih hstep
    simp only [OnLatest, Machine.latest_concat] at ih ⊢
    obtain ⟨pool, i, hits, he, hon⟩ | ⟨he, hkeep⟩ := onBatch_step hstep
    · rw [he]
      exact hon
    · rw [he, Option.none_or]
      split at ih
      · exact hkeep _ _ _ ih
      · exact fun pool i hits => hkeep pool i hits (ih pool i hits)

/-- What is submitted goes to the pool of the last batch, which has issued its job, and has been
checked against that job. -/
theorem submit_checked {cfg : Config} {tr : List (Scheduler × Event)} {s s' : Scheduler}
    {pool : Pool} {jobId nonce : Str} (h : (machine cfg).Run tr s)
    (hstep : Step cfg s (.submit pool jobId nonce) s') :
    ∃ i hits, Machine.latest batchOf tr = some (pool, i, hits) ∧ Delivered tr pool i
      ∧ i.value.jobId = some jobId
      ∧ ∃ hit ∈ hits, nonce = fmtHex 16 hit.nonce.toNat
        ∧ ({ i.value with nonce := hit.nonce } : State).calculatePow cfg.crates
            ≤ i.value.shareTarget := by
  have hon := onLatest h
  have hheld := (allDelivered h).held pool
  rw [OnLatest] at hon
  cases hstep with
  | hitSubmit pool j hit rest pow now jobId hpc hstate hoffer hdue hjob hopen =>
    split at hon
    case h_1 pool' i hits hlatest =>
      simp only [OnBatch, hpc] at hon
      obtain ⟨rfl, hrest, n, hj⟩ := hon
      obtain rfl : j = i.withNonce n := Option.some.inj (hstate.symm.trans hj)
      rw [submitHitOffer_eq_gpuOffer, gpuOffer_eq_some] at hoffer
      obtain ⟨rfl, hpow⟩ := hoffer
      exact ⟨i, hits, hlatest, (hheld _ hstate).withNonce i.value.nonce, hjob, hit,
        hrest (by simp), rfl, hpow⟩
    case h_2 =>
      -- no batch yet, and so no hit
      have := hon pool j []
      simp [OnBatch, hpc] at this

end Devfund
