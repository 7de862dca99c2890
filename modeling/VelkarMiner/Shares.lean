/-
Which nonces are submitted as shares.

* `share_rule_iff` — for which nonces a CPU, a device and the scheduler for two
  pools follow the same rule;
* `gpu_shares_checked` — whatever a device returns, a submitted share belongs to
  its last batch and meets the share target of that batch's job.
-/
import VelkarMiner.StratumDevfund

open Rust State

/-! ### The share rule -/

/-- A nonce is offered if and only if its proof of work meets the share target: by a CPU, by both
checks of a hit, and by a device that computes right, for every batch the nonce is in. -/
structure ShareRule (c : Crates) (s : State) (nonce : U64) : Prop where
  cpu : (cpuOffer c s nonce).isSome
    ↔ ({ s with nonce := nonce } : State).calculatePow c ≤ s.shareTarget
  hit : ∀ pow, (gpuOffer c s ⟨nonce, pow⟩).isSome
    ↔ ({ s with nonce := nonce } : State).calculatePow c ≤ s.shareTarget
  submitHit : ∀ pow, (submitHitOffer c s ⟨nonce, pow⟩).isSome
    ↔ ({ s with nonce := nonce } : State).calculatePow c ≤ s.shareTarget
  device : ∀ nonceBase batchSize, nonce ∈ batchNonces s nonceBase batchSize →
    ((∃ hit ∈ search c s nonceBase batchSize s.shareTarget, hit.nonce = nonce
        ∧ (gpuOffer c s hit).isSome ∧ (submitHitOffer c s hit).isSome)
      ↔ ({ s with nonce := nonce } : State).calculatePow c ≤ s.shareTarget)

theorem gpuOffer_isSome {c : Crates} {s : State} {hit : GpuHit} :
    (gpuOffer c s hit).isSome
      ↔ ({ s with nonce := hit.nonce } : State).calculatePow c ≤ s.shareTarget := by
  rw [Option.isSome_iff_exists]
  constructor
  · rintro ⟨pow, h⟩
    obtain ⟨rfl, hle⟩ := gpuOffer_eq_some.mp h
    exact hle
  · intro hle
    exact ⟨_, gpuOffer_eq_some.mpr ⟨rfl, hle⟩⟩

/-- A device that computes right leads to the offers the checks allow. -/
theorem device_offers_iff {c : Crates} {s : State} {nonce nonceBase : U64} {batchSize : ℕ}
    (hmem : nonce ∈ batchNonces s nonceBase batchSize) :
    (∃ hit ∈ search c s nonceBase batchSize s.shareTarget, hit.nonce = nonce
        ∧ (gpuOffer c s hit).isSome ∧ (submitHitOffer c s hit).isSome)
      ↔ ({ s with nonce := nonce } : State).calculatePow c ≤ s.shareTarget := by
  simp only [submitHitOffer_eq_gpuOffer, and_self, gpuOffer_isSome, mem_search]
  constructor
  · rintro ⟨hit, -, rfl, hle⟩
    exact hle
  · intro hle
    exact ⟨⟨nonce, _⟩, ⟨hmem, rfl, hle⟩, rfl, hle⟩

/-- The rule holds at a nonce unless its proof of work meets the block target alone. -/
theorem share_rule_iff (c : Crates) (s : State) (nonce : U64) :
    ShareRule c s nonce
      ↔ ¬ (s.shareTarget < ({ s with nonce := nonce } : State).calculatePow c
          ∧ ({ s with nonce := nonce } : State).calculatePow c ≤ s.blockTarget) := by
  constructor
  · rintro hrule ⟨hshare, hblock⟩
    have hle := hrule.cpu.mp (cpuOffer_isSome.mpr (Or.inl hblock))
    exact Uint256.not_le.mpr hshare hle
  · intro hcond
    have hcpu : (cpuOffer c s nonce).isSome
        ↔ ({ s with nonce := nonce } : State).calculatePow c ≤ s.shareTarget := by
      rw [cpuOffer_isSome]
      constructor
      · rintro (hblock | hshare)
        · by_contra hnot
          exact hcond ⟨Uint256.not_le.mp hnot, hblock⟩
        · exact hshare
      · exact Or.inr
    refine ⟨hcpu, fun _ => gpuOffer_isSome, fun _ => ?_, fun _ _ => device_offers_iff⟩
    rw [submitHitOffer_eq_gpuOffer]
    exact gpuOffer_isSome

/-- At a job whose block target is above its share target a CPU offers a nonce that misses the
share target. -/
theorem block_target_offered_without_share_target :
    (cpuOffer sampleCrates (sampleJob "1".toList ⟨#v[0, 0, 0, 0]⟩) 2).isSome
      ∧ ¬ ShareRule sampleCrates (sampleJob "1".toList ⟨#v[0, 0, 0, 0]⟩) 2 := by
  have hblock : samplePow ≤ u256FromCompactTarget 0x207fffff := by decide +kernel
  have hshare : (⟨#v[0, 0, 0, 0]⟩ : Uint256) < samplePow := by decide +kernel
  have hpow := calculatePow_sampleJob "1".toList ⟨#v[0, 0, 0, 0]⟩
  have hoffer : (cpuOffer sampleCrates (sampleJob "1".toList ⟨#v[0, 0, 0, 0]⟩) 2).isSome := by
    rw [cpuOffer_isSome, hpow]
    exact Or.inl hblock
  refine ⟨hoffer, fun hrule => ?_⟩
  have hle := hrule.cpu.mp hoffer
  rw [hpow] at hle
  exact Uint256.not_le.mpr hshare hle

/-! ### Shares of a device -/

/-- A job of the sample, as the pool sends it. -/
def sampleStratumJob : StratumJob where
  jobId := "1".toList
  prePowHash := sampleHash
  timestamp := 7
  blockTarget := u256FromCompactTarget 0x207fffff
  shareTarget := u256FromCompactTarget 0x207fffff
  nonceMask := BitVec.allOnes 64
  nonceFixed := 0

theorem sampleStratumJob_mem :
    sampleJob "1".toList (u256FromCompactTarget 0x207fffff)
      ∈ sampleStratumJob.state (fun _ => 64) 0 :=
  sampleJob_mem ..

/-- What the first delivery puts into a slot. -/
def sampleInstance : Instance State :=
  ⟨0, sampleJob "1".toList (u256FromCompactTarget 0x207fffff)⟩

theorem gpuOffer_sample (pow : Uint256) :
    gpuOffer sampleCrates (sampleJob "1".toList (u256FromCompactTarget 0x207fffff)) ⟨2, pow⟩
      = some samplePow :=
  gpuOffer_eq_some.mpr ⟨(calculatePow_sampleJob ..).symm, by decide +kernel⟩

namespace StratumMiner

def sampleConfig : Config Unit := ⟨sampleCrates, fun _ => 64, fun _ => true, 1⟩

def sampleMiner : Miner Unit where
  slot := .empty
  currentStateId := 0
  lastShareSubmitMs := 0
  channelOpen := true
  workers := fun _ => ⟨.top, none, none, 0, 0⟩

/-- A batch with one hit, which is submitted. -/
theorem sample_run :
    ∃ tr m m', (machine sampleConfig).Run tr m
      ∧ Step sampleConfig m (.submit () "1".toList "0000000000000002".toList) m' := by
  have h₁ := Machine.Steps.step (M := machine sampleConfig) .refl
    (Step.job sampleMiner sampleStratumJob _ sampleStratumJob_mem)
  have h₂ := h₁.step (Step.wait _ () rfl rfl (by decide))
  have h₃ := h₂.step (Step.begin _ () _ rfl rfl)
  have h₄ := h₃.step (Step.pollGpu _ () rfl rfl)
  have h₅ := h₄.step (Step.batch _ () _ [⟨2, samplePow⟩] rfl rfl rfl)
  have h₆ := h₅.step (Step.hitOffered _ () _ ⟨2, samplePow⟩ [] samplePow rfl rfl rfl
    (gpuOffer_sample _))
  have h₇ := h₆.step (Step.due _ () 1000 [] rfl (by decide))
  have h₈ := h₇.step (Step.exchanged _ () _ 1000 [] rfl rfl)
  exact ⟨_, _, _, ⟨sampleMiner, ⟨rfl, rfl, rfl, rfl, fun _ => rfl⟩, h₈⟩,
    Step.submit _ () (sampleInstance.withNonce 2) "1".toList [] rfl rfl rfl rfl⟩

end StratumMiner

namespace Devfund

def sampleConfig : Config := ⟨sampleCrates, fun _ => 64, 1⟩

def sampleScheduler : Scheduler where
  slots := fun _ => .empty
  currentStateId := fun _ => 0
  channelOpen := fun _ => true
  pc := .top
  states := fun _ => none
  cached := fun _ => none
  lastSubmit := fun _ => 0
  nonce := 0
  batchIndex := 0
  unit := 0

/-- A batch for the user's pool with one hit, which is submitted. -/
theorem sample_run :
    ∃ tr s s', (machine sampleConfig).Run tr s
      ∧ Step sampleConfig s (.submit .main "1".toList "0000000000000002".toList) s' := by
  have h₁ := Machine.Steps.step (M := machine sampleConfig) .refl
    (Step.job sampleScheduler .main sampleStratumJob _ sampleStratumJob_mem)
  have h₂ := h₁.step (Step.wait _ rfl rfl (by decide))
  have h₃ := h₂.step (Step.poll _ .main rfl)
  have h₄ := h₃.step (Step.poll _ .dev rfl)
  have h₅ := h₄.step (Step.chooseMain _ _ rfl (by rintro ⟨h, -⟩; exact absurd h (by decide)) rfl)
  have h₆ := h₅.step (Step.batch _ .main _ [⟨2, samplePow⟩] rfl rfl)
  have hoffer : submitHitOffer sampleCrates sampleInstance.value ⟨2, samplePow⟩ = some samplePow :=
    (submitHitOffer_eq_gpuOffer ..).trans (gpuOffer_sample _)
  exact ⟨_, _, _, ⟨sampleScheduler, ⟨rfl, rfl, rfl, rfl, rfl, rfl, rfl, rfl, rfl⟩, h₆⟩,
    Step.hitSubmit _ .main sampleInstance ⟨2, samplePow⟩ [] samplePow 1000 "1".toList rfl rfl
      hoffer (by decide) rfl rfl⟩

end Devfund

/-- Whatever a device returns: a share that a worker or the scheduler submits carries the job of
its last batch and the nonce of a hit of that batch, whose proof of work meets the share target;
the scheduler submits it to the pool that has delivered the job. -/
theorem gpu_shares_checked {ι : Type} [DecidableEq ι] (cfg : Config ι) (cfg' : Devfund.Config) :
    (∀ w tr m m' jobId nonce, cfg.gpu w = true → (StratumMiner.machine cfg).Run tr m →
      StratumMiner.Step cfg m (.submit w jobId nonce) m' →
      ∃ i hits, Machine.latest (StratumMiner.batchOf w) tr = some (i, hits)
        ∧ i.value.jobId = some jobId
        ∧ ∃ hit ∈ hits, nonce = fmtHex 16 hit.nonce.toNat
          ∧ ({ i.value with nonce := hit.nonce } : State).calculatePow cfg.crates
              ≤ i.value.shareTarget)
    ∧ ∀ pool tr s s' jobId nonce, (Devfund.machine cfg').Run tr s →
      Devfund.Step cfg' s (.submit pool jobId nonce) s' →
      ∃ i hits, Machine.latest Devfund.batchOf tr = some (pool, i, hits)
        ∧ Devfund.Delivered tr pool i ∧ i.value.jobId = some jobId
        ∧ ∃ hit ∈ hits, nonce = fmtHex 16 hit.nonce.toNat
          ∧ ({ i.value with nonce := hit.nonce } : State).calculatePow cfg'.crates
              ≤ i.value.shareTarget := by
  constructor
  · intro w tr m m' jobId nonce hgpu hrun hstep
    exact StratumMiner.submit_checked hgpu hrun hstep
  · intro pool tr s s' jobId nonce hrun hstep
    exact Devfund.submit_checked hrun hstep

theorem sample_shares_checked :
    (∃ tr m m', (StratumMiner.machine StratumMiner.sampleConfig).Run tr m
      ∧ StratumMiner.Step StratumMiner.sampleConfig m
          (.submit () "1".toList "0000000000000002".toList) m'
      ∧ ∃ i hits, Machine.latest (StratumMiner.batchOf ()) tr = some (i, hits)
        ∧ i.value.jobId = some "1".toList)
    ∧ ∃ tr s s', (Devfund.machine Devfund.sampleConfig).Run tr s
      ∧ Devfund.Step Devfund.sampleConfig s (.submit .main "1".toList "0000000000000002".toList) s'
      ∧ ∃ i hits, Machine.latest Devfund.batchOf tr = some (.main, i, hits)
        ∧ i.value.jobId = some "1".toList := by
  have hchecked := gpu_shares_checked StratumMiner.sampleConfig Devfund.sampleConfig
  constructor
  · obtain ⟨tr, m, m', hrun, hstep⟩ := StratumMiner.sample_run
    obtain ⟨i, hits, hlatest, hjob, -⟩ := hchecked.1 () tr m m' _ _ rfl hrun hstep
    exact ⟨tr, m, m', hrun, hstep, i, hits, hlatest, hjob⟩
  · obtain ⟨tr, s, s', hrun, hstep⟩ := Devfund.sample_run
    obtain ⟨i, hits, hlatest, -, hjob, -⟩ := hchecked.2 .main tr s s' _ _ hrun hstep
    exact ⟨tr, s, s', hrun, hstep, i, hits, hlatest, hjob⟩
