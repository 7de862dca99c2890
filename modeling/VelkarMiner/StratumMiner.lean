/-
Pool mining (`StratumMinerManager` of `src/miner.rs`).

The pool's jobs are swapped into the slot by `process_job`; workers take them
from there and offer nonces to `found_share`, which submits at most one share in
250 ms.  A worker on a CPU asks `pow_match`, a worker on a device compares the
proof of work of each hit with the share target.

* `cpuOffer`, `gpuOffer` — the nonces that are offered;
* `Step` — the worker loops, one step for each shared access.
-/
import VelkarMiner.Runs
import VelkarMiner.Gpu
import VelkarMiner.Stratum

open Rust

/-! ### What is offered -/

/-- The proof of work with which a CPU worker calls `found_share`. -/
def cpuOffer (c : Crates) (s : State) (nonce : U64) : Option Uint256 :=
  let s := { s with nonce := nonce }
  match s.powMatch c with
  | .block | .share => some (s.calculatePow c)
  | .none => none

/-- The proof of work with which a GPU worker calls `found_share`. -/
def gpuOffer (c : Crates) (s : State) (hit : GpuHit) : Option Uint256 :=
  let s := { s with nonce := hit.nonce }
  let consensusPow := s.calculatePow c
  if consensusPow ≤ s.shareTarget then some consensusPow else none

theorem cpuOffer_isSome {c : Crates} {s : State} {nonce : U64} :
    (cpuOffer c s nonce).isSome
      ↔ ({ s with nonce := nonce } : State).calculatePow c ≤ s.blockTarget
        ∨ ({ s with nonce := nonce } : State).calculatePow c ≤ s.shareTarget := by
  simp only [cpuOffer, State.powMatch]
  by_cases hblock : ({ s with nonce := nonce } : State).calculatePow c ≤ s.blockTarget
  · simp [hblock]
  · by_cases hshare : ({ s with nonce := nonce } : State).calculatePow c ≤ s.shareTarget
    · simp [hblock, hshare]
    · simp [hblock, hshare]

theorem gpuOffer_eq_some {c : Crates} {s : State} {hit : GpuHit} {pow : Uint256} :
    gpuOffer c s hit = some pow
      ↔ pow = ({ s with nonce := hit.nonce } : State).calculatePow c ∧ pow ≤ s.shareTarget := by
  simp only [gpuOffer]
  split
  case isTrue h =>
    constructor
    · rintro ⟨⟩
      exact ⟨rfl, h⟩
    · rintro ⟨rfl, -⟩
      rfl
  case isFalse h =>
    refine iff_of_false (by simp) ?_
    rintro ⟨rfl, hle⟩
    exact h hle

/-! ### The workers -/

/-- The state `process_job` builds. -/
def StratumJob.state (job : StratumJob) (computeRank : Matrix64 → ℕ) (id : U64) : Part State :=
  State.fromStratum computeRank id job.jobId job.prePowHash job.timestamp job.blockTarget
    job.shareTarget job.nonceMask job.nonceFixed

/-- `now_ms.saturating_sub(previous) < MIN_SHARE_SUBMIT_INTERVAL_MS`. -/
def TooEarly (now previous : U64) : Prop := now.toNat - previous.toNat < 250

instance (now previous : U64) : Decidable (TooEarly now previous) :=
  inferInstanceAs (Decidable (_ < _))

namespace StratumMiner

/-- Where a worker is in its loop.  The lists are the hits it has not looked at yet. -/
inductive Pc where
  | top
  | poll
  | work
  | hits (rest : List GpuHit)
  | share (rest : List GpuHit)
  | exchange (previous now : U64) (rest : List GpuHit)
  | submit (rest : List GpuHit)
  | advance
  | stopped

/-- A worker.  `unit` counts the batches it has finished on a device, or the stretches
of nonces that ended at a multiple of 128. -/
structure Worker where
  pc : Pc
  state : Option (Instance State)
  cached : Option (Instance State)
  nonce : U64
  unit : ℕ

structure Miner (ι : Type) where
  slot : Slot State
  currentStateId : U64
  lastShareSubmitMs : U64
  channelOpen : Bool
  workers : ι → Worker

inductive Event (ι : Type) where
  | job (state : State)
  | close
  | read (w : ι)
  | batch (w : ι) (i : Instance State) (hits : List GpuHit)
  | hash (w : ι) (i : Instance State) (nonce : U64)
  | clock (w : ι) (now : U64)
  | exchange (w : ι)
  | submit (w : ι) (jobId nonce : Str)
  | go (w : ι)

variable {ι : Type} [DecidableEq ι]

/-- The miner after a worker has moved. -/
def Miner.set (m : Miner ι) (w : ι) (x : Worker) : Miner ι :=
  { m with workers := Function.update m.workers w x }

@[simp] theorem Miner.set_workers_self (m : Miner ι) (w : ι) (x : Worker) :
    (m.set w x).workers w = x := Function.update_self ..

/-- The worker that takes a step. -/
def Event.worker : Event ι → Option ι
  | .job _ | .close => none
  | .read w | .batch w _ _ | .hash w _ _ | .clock w _ | .exchange w | .submit w _ _ | .go w =>
    some w

/-- Where a worker goes on after `found_share`. -/
def resume (cfg : Config ι) (w : ι) (rest : List GpuHit) : Pc :=
  if cfg.gpu w then .hits rest else .advance

inductive Step (cfg : Config ι) : Miner ι → Event ι → Miner ι → Prop
  | job (m : Miner ι) (job : StratumJob) (state : State)
      (hstate : state ∈ job.state cfg.computeRank m.currentStateId) :
      Step cfg m (.job state)
        { m with currentStateId := m.currentStateId + 1, slot := m.slot.swap (some state) }
  -- the receiver of the channel is dropped
  | close (m : Miner ι) : Step cfg m .close { m with channelOpen := false }
  -- the head of the loop: `wait_for_change` without a state, which may bring none
  | wait (m : Miner ι) (w : ι) (hpc : (m.workers w).pc = .top)
      (hstate : (m.workers w).state = none) (hchanged : m.slot.Changed (m.workers w).cached) :
      Step cfg m (.read w) (m.set w { m.workers w with
        state := m.slot.inner, cached := m.slot.inner })
  | begin (m : Miner ι) (w : ι) (i : Instance State) (hpc : (m.workers w).pc = .top)
      (hstate : (m.workers w).state = some i) :
      Step cfg m (.go w) (m.set w { m.workers w with pc := if cfg.gpu w then .poll else .work })
  -- a device looks at the slot before each batch, and keeps its job when there is none
  | pollGpu (m : Miner ι) (w : ι) (hgpu : cfg.gpu w = true) (hpc : (m.workers w).pc = .poll) :
      Step cfg m (.read w) (m.set w { m.workers w with
        pc := .work
        state := if m.slot.Changed (m.workers w).cached then
          m.slot.inner.or (m.workers w).state else (m.workers w).state
        cached := m.slot.getChanged (m.workers w).cached })
  | batch (m : Miner ι) (w : ι) (i : Instance State) (hits : List GpuHit)
      (hgpu : cfg.gpu w = true) (hpc : (m.workers w).pc = .work)
      (hstate : (m.workers w).state = some i) :
      Step cfg m (.batch w i hits) (m.set w { m.workers w with
        pc := .hits hits, nonce := (m.workers w).nonce + cfg.batchSize })
  | searchFailed (m : Miner ι) (w : ι) (hgpu : cfg.gpu w = true) (hpc : (m.workers w).pc = .work) :
      Step cfg m (.go w) (m.set w { m.workers w with pc := .stopped })
  | hitOffered (m : Miner ι) (w : ι) (i : Instance State) (hit : GpuHit) (rest : List GpuHit)
      (pow : Uint256) (hgpu : cfg.gpu w = true) (hpc : (m.workers w).pc = .hits (hit :: rest))
      (hstate : (m.workers w).state = some i)
      (hoffer : gpuOffer cfg.crates i.value hit = some pow) :
      Step cfg m (.go w) (m.set w { m.workers w with
        pc := .share rest, state := some (i.withNonce hit.nonce) })
  | hitRejected (m : Miner ι) (w : ι) (i : Instance State) (hit : GpuHit) (rest : List GpuHit)
      (hgpu : cfg.gpu w = true) (hpc : (m.workers w).pc = .hits (hit :: rest))
      (hstate : (m.workers w).state = some i) (hoffer : gpuOffer cfg.crates i.value hit = none) :
      Step cfg m (.go w) (m.set w { m.workers w with
        pc := .hits rest, state := some (i.withNonce hit.nonce) })
  | hitsDone (m : Miner ι) (w : ι) (hgpu : cfg.gpu w = true) (hpc : (m.workers w).pc = .hits []) :
      Step cfg m (.go w) (m.set w { m.workers w with
        pc := .top, unit := (m.workers w).unit + 1 })
  -- a CPU: one nonce
  | hashOffered (m : Miner ι) (w : ι) (i : Instance State) (nonce : U64) (pow : Uint256)
      (hgpu : cfg.gpu w = false) (hpc : (m.workers w).pc = .work)
      (hstate : (m.workers w).state = some i)
      (hnonce : nonce = i.value.applyExtranonce (m.workers w).nonce)
      (hoffer : cpuOffer cfg.crates i.value nonce = some pow) :
      Step cfg m (.hash w i nonce) (m.set w { m.workers w with
        pc := .share [], state := some (i.withNonce nonce) })
  | hashRejected (m : Miner ι) (w : ι) (i : Instance State) (nonce : U64)
      (hgpu : cfg.gpu w = false) (hpc : (m.workers w).pc = .work)
      (hstate : (m.workers w).state = some i)
      (hnonce : nonce = i.value.applyExtranonce (m.workers w).nonce)
      (hoffer : cpuOffer cfg.crates i.value nonce = none) :
      Step cfg m (.hash w i nonce) (m.set w { m.workers w with
        pc := .advance, state := some (i.withNonce nonce) })
  -- `should_submit_share`: the clock and the load, then the exchange
  | early (m : Miner ι) (w : ι) (now : U64) (rest : List GpuHit)
      (hpc : (m.workers w).pc = .share rest) (hearly : TooEarly now m.lastShareSubmitMs) :
      Step cfg m (.clock w now) (m.set w { m.workers w with pc := resume cfg w rest })
  | due (m : Miner ι) (w : ι) (now : U64) (rest : List GpuHit)
      (hpc : (m.workers w).pc = .share rest) (hdue : ¬ TooEarly now m.lastShareSubmitMs) :
      Step cfg m (.clock w now) (m.set w { m.workers w with
        pc := .exchange m.lastShareSubmitMs now rest })
  | exchanged (m : Miner ι) (w : ι) (previous now : U64) (rest : List GpuHit)
      (hpc : (m.workers w).pc = .exchange previous now rest)
      (hcell : m.lastShareSubmitMs = previous) :
      Step cfg m (.exchange w)
        ({ m with lastShareSubmitMs := now }.set w { m.workers w with pc := .submit rest })
  | overtaken (m : Miner ι) (w : ι) (previous now : U64) (rest : List GpuHit)
      (hpc : (m.workers w).pc = .exchange previous now rest)
      (hcell : m.lastShareSubmitMs ≠ previous) :
      Step cfg m (.exchange w) (m.set w { m.workers w with pc := resume cfg w rest })
  -- the rest of `found_share`
  | submit (m : Miner ι) (w : ι) (i : Instance State) (jobId : Str) (rest : List GpuHit)
      (hpc : (m.workers w).pc = .submit rest) (hstate : (m.workers w).state = some i)
      (hjob : i.value.jobId = some jobId) (hopen : m.channelOpen = true) :
      Step cfg m (.submit w jobId (fmtHex 16 i.value.nonce.toNat))
        (m.set w { m.workers w with pc := resume cfg w rest })
  | submitClosed (m : Miner ι) (w : ι) (rest : List GpuHit) (hpc : (m.workers w).pc = .submit rest)
      (hclosed : m.channelOpen = false) :
      Step cfg m (.go w) (m.set w { m.workers w with pc := .stopped })
  | submitNoJob (m : Miner ι) (w : ι) (i : Instance State) (rest : List GpuHit)
      (hpc : (m.workers w).pc = .submit rest) (hstate : (m.workers w).state = some i)
      (hjob : i.value.jobId = none) :
      Step cfg m (.go w) (m.set w { m.workers w with pc := .stopped })
  -- the next nonce of a CPU, and a look at the slot after every 128
  | advance (m : Miner ι) (w : ι) (hgpu : cfg.gpu w = false) (hpc : (m.workers w).pc = .advance)
      (hmore : ((m.workers w).nonce + 1) % 128 ≠ 0) :
      Step cfg m (.go w) (m.set w { m.workers w with
        pc := .top, nonce := (m.workers w).nonce + 1 })
  | advanceLast (m : Miner ι) (w : ι) (hgpu : cfg.gpu w = false)
      (hpc : (m.workers w).pc = .advance) (hlast : ((m.workers w).nonce + 1) % 128 = 0) :
      Step cfg m (.go w) (m.set w { m.workers w with
        pc := .poll, nonce := (m.workers w).nonce + 1, unit := (m.workers w).unit + 1 })
  | shutdown (m : Miner ι) (w : ι) (hgpu : cfg.gpu w = false) (hpc : (m.workers w).pc = .poll) :
      Step cfg m (.go w) (m.set w { m.workers w with pc := .stopped })
  | pollCpu (m : Miner ι) (w : ι) (hgpu : cfg.gpu w = false) (hpc : (m.workers w).pc = .poll) :
      Step cfg m (.read w) (m.set w { m.workers w with
        pc := .top
        state := if m.slot.Changed (m.workers w).cached then m.slot.inner
          else (m.workers w).state
        cached := m.slot.getChanged (m.workers w).cached })

/-- A miner before its first job, with any first nonces. -/
structure Initial (m : Miner ι) : Prop where
  slot_eq : m.slot = Slot.empty
  currentStateId_eq : m.currentStateId = 0
  lastShareSubmitMs_eq : m.lastShareSubmitMs = 0
  channelOpen_eq : m.channelOpen = true
  worker_eq : ∀ w, m.workers w = ⟨.top, none, none, (m.workers w).nonce, 0⟩

def machine (cfg : Config ι) : Machine (Miner ι) (Event ι) := ⟨Initial, Step cfg⟩

theorem Step.workers_eq {cfg : Config ι} {m m' : Miner ι} {e : Event ι} (h : Step cfg m e m')
    {w : ι} (hw : e.worker ≠ some w) : m'.workers w = m.workers w := by
  cases h with
  | job | close => rfl
  | _ => exact Function.update_of_ne (fun h => hw (congrArg some h.symm)) ..

/-! ### Shares of a device -/

/-- The batch a worker has run. -/
def batchOf (w : ι) : Event ι → Option (Instance State × List GpuHit)
  | .batch w' i hits => if w' = w then some (i, hits) else none
  | _ => none

/-- A worker at the hits of a batch: it holds the job of the batch, and at a share it holds
it with the nonce of a hit that meets the share target. -/
def OnBatch (c : Crates) (i : Instance State) (hits : List GpuHit) (x : Worker) : Prop :=
  match x.pc with
  | .hits rest => rest ⊆ hits ∧ ∃ nonce, x.state = some (i.withNonce nonce)
  | .share rest | .exchange _ _ rest | .submit rest =>
    rest ⊆ hits ∧ ∃ hit ∈ hits, x.state = some (i.withNonce hit.nonce)
      ∧ (i.withNonce hit.nonce).value.calculatePow c ≤ i.value.shareTarget
  | _ => True

theorem OnBatch.at_hit {c : Crates} {i j : Instance State} {hits rest : List GpuHit} {hit : GpuHit}
    {x : Worker} (h : OnBatch c i hits x) (hpc : x.pc = .hits (hit :: rest))
    (hstate : x.state = some j) : hit ∈ hits ∧ rest ⊆ hits ∧ ∃ nonce, j = i.withNonce nonce := by
  simp only [OnBatch, hpc] at h
  obtain ⟨hrest, nonce, hj⟩ := h
  exact ⟨hrest List.mem_cons_self, fun y hy => hrest (List.mem_cons_of_mem hit hy), nonce,
    Option.some.inj (hstate.symm.trans hj)⟩

/-- A step of a worker with a device begins a batch, or goes on with the one it is at. -/
theorem onBatch_step {cfg : Config ι} {m m' : Miner ι} {e : Event ι} (h : Step cfg m e m') {w : ι}
    (hgpu : cfg.gpu w = true) :
    (∃ i hits, batchOf w e = some (i, hits) ∧ OnBatch cfg.crates i hits (m'.workers w))
      ∨ batchOf w e = none ∧ ∀ i hits, OnBatch cfg.crates i hits (m.workers w) →
        OnBatch cfg.crates i hits (m'.workers w) := by
  by_cases hw : e.worker = some w
  case neg =>
    have hother : batchOf w e = none := by
      cases e with
      | batch w' => exact if_neg fun h => hw (congrArg some h)
      | _ => rfl
    rw [Step.workers_eq h hw]
    exact Or.inr ⟨hother, fun _ _ h => h⟩
  case pos =>
    cases h with
    | job | close => cases hw
    | batch w' i hits hdev hpc hstate =>
      obtain rfl : w' = w := Option.some.inj hw
      left
      refine ⟨i, hits, if_pos rfl, ?_⟩
      simp only [OnBatch, Miner.set_workers_self]
      exact ⟨fun _ hx => hx, i.value.nonce, hstate⟩
    | hitOffered w' j hit rest pow hdev hpc hstate hoffer =>
      obtain rfl : w' = w := Option.some.inj hw
      obtain ⟨rfl, hle⟩ := gpuOffer_eq_some.mp hoffer
      right
      refine ⟨rfl, fun i hits hon => ?_⟩
      obtain ⟨hhit, hrest, nonce, rfl⟩ := hon.at_hit hpc hstate
      simp only [OnBatch, Miner.set_workers_self]
      exact ⟨hrest, hit, hhit, rfl, hle⟩
    | hitRejected w' j hit rest hdev hpc hstate hoffer =>
      obtain rfl : w' = w := Option.some.inj hw
      right
      refine ⟨rfl, fun i hits hon => ?_⟩
      obtain ⟨-, hrest, nonce, rfl⟩ := hon.at_hit hpc hstate
      simp only [OnBatch, Miner.set_workers_self]
      exact ⟨hrest, hit.nonce, rfl⟩
    | early w' now rest hpc hearly | overtaken w' previous now rest hpc hcell
    | submit w' j jobId rest hpc hstate hjob hopen =>
      -- back from `found_share` to the hits that are left
      obtain rfl : w' = w := Option.some.inj hw
      right
      refine ⟨rfl, fun i hits hon => ?_⟩
      simp only [OnBatch, hpc] at hon
      obtain ⟨hrest, hit, -, hj, -⟩ := hon
      simp only [OnBatch, Miner.set_workers_self, resume, hgpu, if_true]
      exact ⟨hrest, hit.nonce, hj⟩
    | due w' now rest hpc hdue | exchanged w' previous now rest hpc hcell =>
      obtain rfl : w' = w := Option.some.inj hw
      right
      refine ⟨rfl, fun i hits hon => ?_⟩
      simp only [OnBatch, hpc] at hon
      simpa only [OnBatch, Miner.set_workers_self] using hon
    | hashOffered w' i nonce pow hcpu | hashRejected w' i nonce hcpu =>
      obtain rfl : w' = w := Option.some.inj hw
      rw [hgpu] at hcpu
      cases hcpu
    | wait w' hpc hstate hchanged =>
      obtain rfl : w' = w := Option.some.inj hw
      exact Or.inr ⟨rfl, fun _ _ _ => by simp [OnBatch, hpc]⟩
    | begin w' i hpc hstate =>
      obtain rfl : w' = w := Option.some.inj hw
      exact Or.inr ⟨rfl, fun _ _ _ => by simp [OnBatch, hgpu]⟩
    | _ w' =>
      obtain rfl : w' = w := Option.some.inj hw
      exact Or.inr ⟨rfl, fun _ _ _ => by simp [OnBatch]⟩

/-- A worker is at its last batch; before the first one it is at none. -/
def OnLatest (c : Crates) (w : ι) (tr : List (Miner ι × Event ι)) (x : Worker) : Prop :=
  match Machine.latest (batchOf w) tr with
  | some (i, hits) => OnBatch c i hits x
  | none => ∀ i hits, OnBatch c i hits x

theorem onLatest {cfg : Config ι} {w : ι} (hgpu : cfg.gpu w = true)
    {tr : List (Miner ι × Event ι)} {m : Miner ι} (h : (machine cfg).Run tr m) :
    OnLatest cfg.crates w tr (m.workers w) := by
  refine Machine.Run.induction (P := fun tr m => OnLatest cfg.crates w tr (m.workers w)) ?_ ?_ h
  · intro m hm i hits
    rw [hm.worker_eq w]
    trivial
  · intro tr m e m' _ ih hstep
    simp only [OnLatest, Machine.latest_concat] at ih ⊢
    obtain ⟨i, hits, he, hon⟩ | ⟨he, hkeep⟩ := onBatch_step hstep hgpu
    · rw [he]
      exact hon
    · rw [he, Option.none_or]
      split at ih
      · exact hkeep _ _ ih
      · exact fun i hits => hkeep i hits (ih i hits)

/-- What a device submits has been checked against its job. -/
theorem submit_checked {cfg : Config ι} {w : ι} (hgpu : cfg.gpu w = true)
    {tr : List (Miner ι × Event ι)} {m m' : Miner ι} {jobId nonce : Str}
    (h : (machine cfg).Run tr m) (hstep : Step cfg m (.submit w jobId nonce) m') :
    ∃ i hits, Machine.latest (batchOf w) tr = some (i, hits) ∧ i.value.jobId = some jobId
      ∧ ∃ hit ∈ hits, nonce = fmtHex 16 hit.nonce.toNat
        ∧ ({ i.value with nonce := hit.nonce } : State).calculatePow cfg.crates
            ≤ i.value.shareTarget := by
  have hon := onLatest hgpu h
  rw [OnLatest] at hon
  cases hstep with
  | submit w j jobId rest hpc hstate hjob hopen =>
    split at hon
    case h_1 i hits hlatest =>
      simp only [OnBatch, hpc] at hon
      obtain ⟨-, hit, hmem, hj, hpow⟩ := hon
      obtain rfl : j = i.withNonce hit.nonce := Option.some.inj (hstate.symm.trans hj)
      exact ⟨i, hits, hlatest, hjob, hit, hmem, rfl, hpow⟩
    case h_2 =>
      -- no batch yet, and so no hit
      have := hon ⟨0, j.value⟩ []
      simp [OnBatch, hpc] at this

end StratumMiner
