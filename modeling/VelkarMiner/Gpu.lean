/-
The host's side of a device (`src/gpu.rs`).

A device prepares a batch of nonces and hands back, for each of them, what it has
computed of the four stages; the host finishes the proof of work and keeps the
nonces that meet a target.  The miners look at every hit again, since nothing says
that a device computes right.

* `search`, `mem_search` — the hits of a device that does.
-/
import VelkarMiner.WatchSwap
import VelkarMiner.Pow

/-! ### Hits -/

/-- A candidate returned by a device. -/
structure GpuHit where
  nonce : U64
  pow : Uint256

/-- What a device hands back for one nonce. -/
structure GpuRow where
  stage1 : Hash
  stage2 : Hash
  stage3 : Hash
  stage4 : Hash
  nonce : U64

/-- The row of a nonce when all stages are right. -/
def GpuRow.correct (c : Crates) (s : State) (nonce : U64) : GpuRow :=
  let stage1 := s.stage1ForNonce c nonce
  let stage2 := s.stage2ForStage1 c stage1
  let stage3 := State.stage3ForStage2 c stage2
  ⟨stage1, stage2, stage3, s.cpuStage4FromParts c stage1 stage3 nonce, nonce⟩

/-- The loop over the rows in `export_and_filter_candidates`. -/
def filterCandidates (c : Crates) (s : State) (rows : List GpuRow) (checkTarget : Uint256) :
    List GpuHit :=
  rows.filterMap fun row =>
    let pow := s.calculatePowFromGpuStage4 c row.stage1 row.stage2 row.stage3 row.stage4 row.nonce
    if pow ≤ checkTarget then some ⟨row.nonce, pow⟩ else none

/-- The nonces of a batch. -/
def batchNonces (s : State) (nonceBase : U64) (batchSize : ℕ) : List U64 :=
  (List.range batchSize).map fun j => s.applyExtranonce (nonceBase + BitVec.ofNat 64 j)

/-- The hits of a device whose stages are right. -/
def search (c : Crates) (s : State) (nonceBase : U64) (batchSize : ℕ) (checkTarget : Uint256) :
    List GpuHit :=
  filterCandidates c s ((batchNonces s nonceBase batchSize).map (GpuRow.correct c s)) checkTarget

theorem mem_search {c : Crates} {s : State} {nonceBase : U64} {batchSize : ℕ}
    {checkTarget : Uint256} {hit : GpuHit} :
    hit ∈ search c s nonceBase batchSize checkTarget
      ↔ hit.nonce ∈ batchNonces s nonceBase batchSize
        ∧ hit.pow = ({ s with nonce := hit.nonce } : State).calculatePow c
        ∧ hit.pow ≤ checkTarget := by
  obtain ⟨nonce, pow⟩ := hit
  have hpow : ∀ n, s.calculatePowFromGpuStage4 c (GpuRow.correct c s n).stage1
      (GpuRow.correct c s n).stage2 (GpuRow.correct c s n).stage3 (GpuRow.correct c s n).stage4
      (GpuRow.correct c s n).nonce = ({ s with nonce := n } : State).calculatePow c := fun _ => rfl
  simp only [search, filterCandidates, List.mem_filterMap, List.mem_map, exists_exists_and_eq_and,
    hpow]
  constructor
  · rintro ⟨n, hn, h⟩
    split at h
    case isTrue hle =>
      obtain ⟨rfl, rfl⟩ : n = nonce ∧ _ = pow := by simpa [GpuRow.correct] using h
      exact ⟨hn, rfl, hle⟩
    case isFalse => cases h
  · rintro ⟨hn, rfl, hle⟩
    exact ⟨nonce, hn, if_pos hle⟩

/-! ### Instances of states -/

/-- The instance with the nonce of its state set. -/
def Instance.withNonce (i : Instance State) (nonce : U64) : Instance State :=
  { i with value := { i.value with nonce := nonce } }

@[simp] theorem Instance.withNonce_stamp (i : Instance State) (nonce : U64) :
    (i.withNonce nonce).stamp = i.stamp := rfl

@[simp] theorem Instance.withNonce_value (i : Instance State) (nonce : U64) :
    (i.withNonce nonce).value = { i.value with nonce := nonce } := rfl

/-! ### Workers -/

/-- What the threads of a miner are started with: the crates, the rank, which workers drive a
device, and how many nonces a batch has. -/
structure Config (ι : Type) where
  crates : Crates
  computeRank : Matrix64 → ℕ
  gpu : ι → Bool
  batchSize : U64
