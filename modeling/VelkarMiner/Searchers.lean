/-
The two searchers of a device (`src/gpu.rs`, `src/cuda.rs`).

A searcher uploads the constants of a job, launches four kernels over a batch of
nonces and recovers what they have left by byte offsets: a row of 192 bytes, the
fourth stage and the nonce of each job.  Its first call also compares the first
row with the CPU.  The kernels are a parameter, `Driver`; a driver call that fails
ends the search with its error.

* `preparedRow`, `Holds` — a batch on the device that agrees with the CPU;
* `rowAt_of_holds` — the offsets recover the stages;
* `filterRows_of_holds` — the loop over the rows, whatever it validates.
-/
import Mathlib.Data.List.GetD
import VelkarMiner.Gpu
import VelkarMiner.Argon2

open Bytes Rust

def ARGON2_BLOCK_BYTES : ℕ := 1024
def ARGON2_SYNC_POINTS : ℕ := 4
def JOB_INPUT_BYTES : ℕ := 72 + 16 + 8 + 32 + 32 + 32
def CONSTANTS_BYTES : ℕ := 72 + 64 * 64 * 2

def memoryPerJobBytes : ℕ :=
  ARGON_MEMORY_KIB / (ARGON2_SYNC_POINTS * ARGON_LANES) * ARGON2_SYNC_POINTS * ARGON2_BLOCK_BYTES

/-- `to_be_hex`. -/
def Uint256.toBeHex (self : Uint256) : Str :=
  self.toLeBytes.toList.reverse.flatMap fun byte => fmtHex 2 byte.toNat

/-! ### The device -/

/-- The buffers of a searcher. -/
structure DeviceBuffers where
  memory : Buffer Byte
  constants : Buffer Byte
  jobInputs : Buffer Byte
  stage4 : Buffer Byte
  nonces : Buffer U64

/-- The scalar arguments of `velkar_prepare_jobs`. -/
structure PrepareArgs where
  inputPerJob : U64
  nonceBase : U64
  nonceMask : U64
  nonceFixed : U64
  target : Vector U64 4

/-- The four kernels, each launched over a batch of the given size. -/
structure Driver where
  velkarPrepareJobs : ℕ → PrepareArgs → DeviceBuffers → Except Str DeviceBuffers
  velkarInitFirstBlocks : ℕ → (memoryPerJob inputPerJob : U64) → DeviceBuffers →
    Except Str DeviceBuffers
  argon2KernelOneshotPrecompute : ℕ → (passes lanes segmentBlocks : U32) → DeviceBuffers →
    Except Str DeviceBuffers
  velkarExportStage4 : ℕ → (memoryPerJob inputPerJob : U64) → DeviceBuffers →
    Except Str DeviceBuffers

def uploadConstants (state : State) (buffers : DeviceBuffers) : DeviceBuffers :=
  let constants := state.gpuHashHeader.toList ++ state.matrix.val.asU16LeBytes.toList
  { buffers with
    constants := writeAt buffers.constants 0 CONSTANTS_BYTES fun i => constants.getD i 0 }

/-- The launches up to the first blocks. -/
def Driver.prepare (driver : Driver) (batchSize : ℕ) (state : State) (nonceBase : U64)
    (buffers : DeviceBuffers) : Except Str DeviceBuffers := do
  let buffers ← driver.velkarPrepareJobs batchSize
    ⟨BitVec.ofNat 64 JOB_INPUT_BYTES, nonceBase, state.nonceMask, state.nonceFixed,
      state.blockTarget.toLeU64⟩ (uploadConstants state buffers)
  driver.velkarInitFirstBlocks batchSize (BitVec.ofNat 64 memoryPerJobBytes)
    (BitVec.ofNat 64 JOB_INPUT_BYTES) buffers

/-- The launches from the memory fill on. -/
def Driver.finish (driver : Driver) (batchSize : ℕ) (buffers : DeviceBuffers) :
    Except Str DeviceBuffers := do
  let buffers ← driver.argon2KernelOneshotPrecompute batchSize (BitVec.ofNat 32 ARGON_TIME_COST)
    (BitVec.ofNat 32 ARGON_LANES)
    (BitVec.ofNat 32 (ARGON_MEMORY_KIB / (ARGON2_SYNC_POINTS * ARGON_LANES))) buffers
  driver.velkarExportStage4 batchSize (BitVec.ofNat 64 memoryPerJobBytes)
    (BitVec.ofNat 64 JOB_INPUT_BYTES) buffers

/-- The buffers after all launches of a search. -/
def Driver.launch (driver : Driver) (batchSize : ℕ) (state : State) (nonceBase : U64)
    (buffers : DeviceBuffers) : Except Str DeviceBuffers :=
  driver.prepare batchSize state nonceBase buffers >>= driver.finish batchSize

/-! ### The rows -/

/-- `&v[a..b]`. -/
def sliceOf {ε α : Type} (v : List α) (a b : ℕ) : Outcome ε (List α) :=
  if a ≤ b ∧ b ≤ v.length then .ok ((v.drop a).take (b - a)) else .panic

/-- `Hash::from_le_bytes(v[a..b].try_into().expect(_))`. -/
def hashAt (v : List Byte) (a b : ℕ) : Outcome Error Hash := do
  let bytes ← sliceOf v a b
  if h : bytes.length = 32 then pure (Uint256.fromLeBytes ⟨bytes.toArray, h⟩) else .panic

/-- The bytes of job `i` and what they say of its stages. -/
def rowAt (jobInputs stage4 : List Byte) (nonce : U64) (i : ℕ) :
    Outcome Error (List Byte × GpuRow) := do
  let input ← sliceOf jobInputs (i * JOB_INPUT_BYTES) ((i + 1) * JOB_INPUT_BYTES)
  let stage1 ← hashAt input 96 128
  let stage2 ← hashAt input 128 160
  let stage3 ← hashAt input 160 192
  let stage4 ← hashAt stage4 (i * 32) ((i + 1) * 32)
  pure (input, ⟨stage1, stage2, stage3, stage4, nonce⟩)

variable (c : Crates)

/-- The check of the first row, made until it has been gone through once. -/
def validateOnce (validate : List Byte → GpuRow → Outcome Error Unit) (i : ℕ) (input : List Byte)
    (row : GpuRow) : Method Bool Error Unit := fun validationDone =>
  if i = 0 ∧ validationDone = false then
    match validate input row with
    | .ok _ => (.ok (), true)
    | .err e => (.err e, validationDone)
    | .panic => (.panic, validationDone)
  else (.ok (), validationDone)

/-- One turn of the loop over the nonces. -/
def filterRow (validate : List Byte → GpuRow → Outcome Error Unit) (state : State)
    (checkTarget : Uint256) (jobInputs stage4 : List Byte) (hits : List GpuHit) (job : U64 × ℕ) :
    Method Bool Error (List GpuHit) := do
  let (input, row) ← Method.lift (rowAt jobInputs stage4 job.1 job.2)
  validateOnce validate job.2 input row
  let pow := state.calculatePowFromGpuStage4 c row.stage1 row.stage2 row.stage3 row.stage4 row.nonce
  pure (if pow ≤ checkTarget then hits ++ [⟨row.nonce, pow⟩] else hits)

/-- The loop over the nonces that have been read back. -/
def filterRows (validate : List Byte → GpuRow → Outcome Error Unit) (state : State)
    (checkTarget : Uint256) (batchSize : ℕ) (buffers : DeviceBuffers) :
    Method Bool Error (List GpuHit) :=
  let jobInputs := bytesAt buffers.jobInputs 0 (JOB_INPUT_BYTES * batchSize)
  let stage4 := bytesAt buffers.stage4 0 (32 * batchSize)
  let nonces := (List.range batchSize).map buffers.nonces
  nonces.zipIdx.foldlM (filterRow c validate state checkTarget jobInputs stage4) []

/-! ### OpenCL -/

/-- The crate's `hash_password_into_with_memory` at the parameters of the miner: the
memory it leaves behind. -/
abbrev HashWithMemory := (password salt : List Byte) → Except Str (Vector Argon2.Block 8192)

structure OpenClSearcher where
  batchSize : ℕ
  batchSize_pos : 0 < batchSize
  buffers : DeviceBuffers
  initialValidationDone : Bool
  fullValidationDone : Bool

namespace OpenClSearcher

/-- The memory of the first job is only compared for the log. -/
def diagnoseArgonMemory (argon : HashWithMemory) (input : List Byte) : Outcome Error Unit := do
  let password ← sliceOf input 0 72
  let salt ← sliceOf input 72 88
  let _cpuMemory ← Outcome.ofExcept Error.message (argon password salt)
  pure ()

/-- A row that differs from the CPU's is logged and kept. -/
def validate (argon : HashWithMemory) (input : List Byte) (_row : GpuRow) : Outcome Error Unit :=
  diagnoseArgonMemory argon input

def exportAndFilterCandidates (argon : HashWithMemory) (state : State) (checkTarget : Uint256) :
    Method OpenClSearcher Error (List GpuHit) := fun self =>
  let r := filterRows c (validate argon) state checkTarget self.batchSize self.buffers
    self.fullValidationDone
  (r.1, { self with fullValidationDone := r.2 })

/-- The first two blocks of the first job are only compared for the log. -/
def validateInitialBlocksOnce (self : OpenClSearcher) : OpenClSearcher :=
  { self with initialValidationDone := true }

def search (driver : Driver) (argon : HashWithMemory) (state : State) (nonceBase : U64)
    (checkTarget : Uint256) : Method OpenClSearcher Error (List GpuHit) := fun self =>
  match driver.prepare self.batchSize state nonceBase self.buffers with
  | .error e => (.err (.message e), self)
  | .ok buffers =>
    let self := validateInitialBlocksOnce { self with buffers := buffers }
    match driver.finish self.batchSize self.buffers with
    | .error e => (.err (.message e), self)
    | .ok buffers =>
      exportAndFilterCandidates c argon state checkTarget { self with buffers := buffers }

end OpenClSearcher

/-! ### CUDA -/

structure CudaSearcher where
  batchSize : ℕ
  batchSize_pos : 0 < batchSize
  buffers : DeviceBuffers
  validationDone : Bool

namespace CudaSearcher

/-- A row that differs from the CPU's ends the search. -/
def validate (state : State) (_input : List Byte) (row : GpuRow) : Outcome Error Unit :=
  let cpu := GpuRow.correct c state row.nonce
  if (row.stage1, row.stage2, row.stage3, row.stage4)
      ≠ (cpu.stage1, cpu.stage2, cpu.stage3, cpu.stage4) then
    .err (.message ("CUDA Velkar startup validation failed at nonce ".toList
      ++ fmtHex 16 row.nonce.toNat ++ ": GPU stage4=".toList ++ row.stage4.toBeHex
      ++ " CPU stage4=".toList ++ cpu.stage4.toBeHex))
  else .ok ()

def search (driver : Driver) (state : State) (nonceBase : U64) (checkTarget : Uint256) :
    Method CudaSearcher Error (List GpuHit) := fun self =>
  match driver.launch self.batchSize state nonceBase self.buffers with
  | .error e => (.err (.message e), self)
  | .ok buffers =>
    let r := filterRows c (validate c state) state checkTarget self.batchSize buffers
      self.validationDone
    (r.1, { self with buffers := buffers, validationDone := r.2 })

end CudaSearcher

/-- A searcher of either backend. -/
inductive GpuSearcher where
  | openCl (searcher : OpenClSearcher)
  | cuda (searcher : CudaSearcher)

namespace GpuSearcher

def batchSize : GpuSearcher → ℕ
  | openCl searcher => searcher.batchSize
  | cuda searcher => searcher.batchSize

def buffers : GpuSearcher → DeviceBuffers
  | openCl searcher => searcher.buffers
  | cuda searcher => searcher.buffers

def search (driver : Driver) (argon : HashWithMemory) (state : State) (nonceBase : U64)
    (checkTarget : Uint256) : Method GpuSearcher Error (List GpuHit)
  | openCl searcher =>
    let r := searcher.search c driver argon state nonceBase checkTarget
    (r.1, openCl r.2)
  | cuda searcher =>
    let r := searcher.search c driver state nonceBase checkTarget
    (r.1, cuda r.2)

end GpuSearcher

/-! ### What the offsets recover -/

/-- The row of a nonce: password, salt, nonce and the three stages. -/
def preparedRow (s : State) (nonce : U64) : List Byte :=
  let row := GpuRow.correct c s nonce
  (memoryHardPassword row.stage3 nonce s.blockTarget).toList
    ++ (memoryHardSalt row.stage1 row.stage3).toList ++ leBytes nonce
    ++ row.stage1.toLeBytes.toList ++ row.stage2.toLeBytes.toList ++ row.stage3.toLeBytes.toList

/-- The buffers hold what the CPU computes for each nonce of a batch. -/
structure Holds (s : State) (nonceBase : U64) (batchSize : ℕ) (buffers : DeviceBuffers) :
    Prop where
  row : ∀ j < batchSize, bytesAt buffers.jobInputs (j * JOB_INPUT_BYTES) JOB_INPUT_BYTES
    = preparedRow c s (s.applyExtranonce (nonceBase + BitVec.ofNat 64 j))
  stage4 : ∀ j < batchSize, bytesAt buffers.stage4 (j * 32) 32
    = (GpuRow.correct c s
        (s.applyExtranonce (nonceBase + BitVec.ofNat 64 j))).stage4.toLeBytes.toList
  nonce : ∀ j < batchSize, buffers.nonces j = s.applyExtranonce (nonceBase + BitVec.ofNat 64 j)

variable {c}

theorem sliceOf_bytesAt {ε : Type} (buffer : Buffer Byte) {offset n a b : ℕ} (hab : a ≤ b)
    (hb : b ≤ n) : (sliceOf (bytesAt buffer offset n) a b : Outcome ε (List Byte))
      = .ok (bytesAt buffer (offset + a) (b - a)) := by
  rw [sliceOf, if_pos ⟨hab, by rwa [length_bytesAt]⟩]
  congr 1
  apply List.ext_getElem
  · simp only [List.length_take, List.length_drop, length_bytesAt]
    omega
  · intro i h₁ h₂
    simp [bytesAt, Nat.add_assoc]

theorem sliceOf_append {ε α : Type} (p w q : List α) {a b : ℕ} (ha : p.length = a)
    (hb : b = a + w.length) : (sliceOf (p ++ (w ++ q)) a b : Outcome ε (List α)) = .ok w := by
  have hlen : b ≤ (p ++ (w ++ q)).length := by
    rw [List.length_append, List.length_append]
    omega
  rw [sliceOf, if_pos ⟨by omega, hlen⟩, ← ha, List.drop_left, show b - p.length = w.length by omega,
    List.take_left]

theorem hashAt_of_slice {v : List Byte} {a b : ℕ} {h : Hash}
    (hs : sliceOf v a b = (.ok h.toLeBytes.toList : Outcome Error (List Byte))) :
    hashAt v a b = .ok h := by
  have hvec : ∀ hn, (⟨h.toLeBytes.toList.toArray, hn⟩ : Vector Byte 32) = h.toLeBytes :=
    fun _ => Vector.toArray_inj.mp Array.toArray_toList
  rw [hashAt, hs, Outcome.ok_bind, dif_pos (Vector.length_toList), hvec,
    Uint256.fromLeBytes_toLeBytes]
  rfl

/-- A hash is recovered from the offset it has been written at. -/
theorem hashAt_append (p q : List Byte) (h : Hash) {a b : ℕ} (ha : p.length = a)
    (hb : b = a + 32) : hashAt (p ++ (h.toLeBytes.toList ++ q)) a b = .ok h :=
  hashAt_of_slice (sliceOf_append p _ q ha (by rw [Vector.length_toList, hb]))

/-- The three stages behind password, salt and nonce. -/
theorem stages_of_append {p : List Byte} (hp : p.length = 96) (stage1 stage2 stage3 : Hash) :
    let input := p ++ stage1.toLeBytes.toList ++ stage2.toLeBytes.toList ++ stage3.toLeBytes.toList
    hashAt input 96 128 = .ok stage1 ∧ hashAt input 128 160 = .ok stage2
      ∧ hashAt input 160 192 = .ok stage3 := by
  have h1 := hashAt_append p (stage2.toLeBytes.toList ++ stage3.toLeBytes.toList) stage1
    (b := 128) hp rfl
  have h2 := hashAt_append (p ++ stage1.toLeBytes.toList) stage3.toLeBytes.toList stage2
    (a := 128) (b := 160) (by rw [List.length_append, hp, Vector.length_toList]) rfl
  have h3 := hashAt_append (p ++ stage1.toLeBytes.toList ++ stage2.toLeBytes.toList) [] stage3
    (a := 160) (b := 192)
    (by rw [List.length_append, List.length_append, hp, Vector.length_toList,
      Vector.length_toList]) rfl
  rw [List.append_nil] at h3
  simp only [List.append_assoc] at h1 h2 h3 ⊢
  exact ⟨h1, h2, h3⟩

theorem length_rowHead (s : State) (row : GpuRow) (nonce : U64) :
    ((memoryHardPassword row.stage3 nonce s.blockTarget).toList
      ++ (memoryHardSalt row.stage1 row.stage3).toList ++ leBytes nonce).length = 96 := by
  simp [leBytes]

section

variable {s : State} {nonceBase : U64} {batchSize : ℕ} {buffers : DeviceBuffers}

theorem Holds.input (h : Holds c s nonceBase batchSize buffers) {i : ℕ} (hi : i < batchSize) :
    (sliceOf (bytesAt buffers.jobInputs 0 (JOB_INPUT_BYTES * batchSize)) (i * JOB_INPUT_BYTES)
        ((i + 1) * JOB_INPUT_BYTES) : Outcome Error (List Byte))
      = .ok (preparedRow c s (buffers.nonces i)) := by
  have hle : (i + 1) * JOB_INPUT_BYTES ≤ JOB_INPUT_BYTES * batchSize := by
    rw [Nat.mul_comm]
    exact Nat.mul_le_mul_left _ hi
  rw [sliceOf_bytesAt _ (Nat.mul_le_mul_right _ (by omega)) hle, Nat.zero_add, h.nonce i hi,
    ← h.row i hi, Nat.succ_mul, Nat.add_sub_cancel_left]

theorem Holds.hash (h : Holds c s nonceBase batchSize buffers) {i : ℕ} (hi : i < batchSize) :
    hashAt (bytesAt buffers.stage4 0 (32 * batchSize)) (i * 32) ((i + 1) * 32)
      = .ok (GpuRow.correct c s (buffers.nonces i)).stage4 := by
  apply hashAt_of_slice
  rw [sliceOf_bytesAt _ (by omega) (by omega), Nat.zero_add, Nat.succ_mul,
    Nat.add_sub_cancel_left, h.stage4 i hi, h.nonce i hi]

/-- Every row of a batch that holds is read as the CPU has it. -/
theorem rowAt_of_holds (h : Holds c s nonceBase batchSize buffers) {i : ℕ} (hi : i < batchSize) :
    rowAt (bytesAt buffers.jobInputs 0 (JOB_INPUT_BYTES * batchSize))
        (bytesAt buffers.stage4 0 (32 * batchSize)) (buffers.nonces i) i
      = .ok (preparedRow c s (buffers.nonces i), GpuRow.correct c s (buffers.nonces i)) := by
  obtain ⟨h1, h2, h3⟩ := stages_of_append (length_rowHead s (GpuRow.correct c s (buffers.nonces i))
    (buffers.nonces i)) (GpuRow.correct c s (buffers.nonces i)).stage1
    (GpuRow.correct c s (buffers.nonces i)).stage2 (GpuRow.correct c s (buffers.nonces i)).stage3
  rw [rowAt, h.input hi, Outcome.ok_bind, preparedRow, h1, Outcome.ok_bind, h2, Outcome.ok_bind, h3,
    Outcome.ok_bind, h.hash hi, Outcome.ok_bind]
  rfl

/-! ### The loop -/

/-- What the CPU makes of a nonce. -/
def cpuHit (c : Crates) (s : State) (checkTarget : Uint256) (nonce : U64) : Option GpuHit :=
  let pow := ({ s with nonce := nonce } : State).calculatePow c
  if pow ≤ checkTarget then some ⟨nonce, pow⟩ else none

variable {validate : List Byte → GpuRow → Outcome Error Unit} {checkTarget : Uint256}

/-- A turn of the loop appends the hit of its nonce, if there is one; only the first turn
touches the flag. -/
theorem filterRow_of_holds (h : Holds c s nonceBase batchSize buffers)
    (hv : ∀ nonce, validate (preparedRow c s nonce) (GpuRow.correct c s nonce) = .ok ()) {i : ℕ}
    (hi : i < batchSize) (hits : List GpuHit) (done : Bool) :
    filterRow c validate s checkTarget (bytesAt buffers.jobInputs 0 (JOB_INPUT_BYTES * batchSize))
        (bytesAt buffers.stage4 0 (32 * batchSize)) hits (buffers.nonces i, i) done
      = (.ok (hits ++ (cpuHit c s checkTarget (buffers.nonces i)).toList),
        done || decide (i = 0)) := by
  have hflag : validateOnce validate i (preparedRow c s (buffers.nonces i))
      (GpuRow.correct c s (buffers.nonces i)) done = (.ok (), done || decide (i = 0)) := by
    rw [validateOnce, hv]
    by_cases h0 : i = 0
    · cases done <;> simp [h0]
    · simp [h0]
  have hrun : filterRow c validate s checkTarget
      (bytesAt buffers.jobInputs 0 (JOB_INPUT_BYTES * batchSize))
      (bytesAt buffers.stage4 0 (32 * batchSize)) hits (buffers.nonces i, i) done
      = (validateOnce validate i (preparedRow c s (buffers.nonces i))
          (GpuRow.correct c s (buffers.nonces i)) >>= fun _ =>
        (pure (if ({ s with nonce := buffers.nonces i } : State).calculatePow c ≤ checkTarget then
          hits ++ [⟨buffers.nonces i,
            ({ s with nonce := buffers.nonces i } : State).calculatePow c⟩]
          else hits) : Method Bool Error (List GpuHit))) done := by
    rw [filterRow, Method.lift_bind_run, rowAt_of_holds h hi]
    rfl
  rw [hrun, Method.bind_run, hflag]
  simp only [Method.pure_run, cpuHit]
  split
  · rfl
  · rw [Option.toList_none, List.append_nil]

/-- The turns over some of the jobs, in their order. -/
theorem foldlM_filterRow (h : Holds c s nonceBase batchSize buffers)
    (hv : ∀ nonce, validate (preparedRow c s nonce) (GpuRow.correct c s nonce) = .ok ())
    (jobs : List ℕ) (hjobs : ∀ i ∈ jobs, i < batchSize) (hits : List GpuHit) (done : Bool) :
    (((jobs.map fun i => (buffers.nonces i, i)).foldlM (filterRow c validate s checkTarget
        (bytesAt buffers.jobInputs 0 (JOB_INPUT_BYTES * batchSize))
        (bytesAt buffers.stage4 0 (32 * batchSize))) hits : Method Bool Error (List GpuHit)) done).1
      = .ok (hits ++ (jobs.map buffers.nonces).filterMap (cpuHit c s checkTarget)) := by
  induction jobs generalizing hits done with
  | nil => simp
  | cons i jobs ih =>
    have hi : i < batchSize := hjobs i List.mem_cons_self
    have hrest : ∀ k ∈ jobs, k < batchSize := fun k hk => hjobs k (List.mem_cons_of_mem i hk)
    rw [List.map_cons, List.foldlM_cons, Method.bind_run, filterRow_of_holds h hv hi]
    rw [ih hrest, List.append_assoc, List.map_cons, List.filterMap_cons]
    cases cpuHit c s checkTarget (buffers.nonces i) <;> rfl

theorem zipIdx_nonces (buffers : DeviceBuffers) (n : ℕ) :
    ((List.range n).map buffers.nonces).zipIdx
      = (List.range n).map fun i => (buffers.nonces i, i) := by
  apply List.ext_getElem
  · simp
  · intro i h₁ h₂
    simp

/-- The loop keeps the hits of the batch, in job order, whether it validates or not. -/
theorem filterRows_of_holds (h : Holds c s nonceBase batchSize buffers)
    (hv : ∀ nonce, validate (preparedRow c s nonce) (GpuRow.correct c s nonce) = .ok ())
    (done : Bool) : (filterRows c validate s checkTarget batchSize buffers done).1
      = .ok ((batchNonces s nonceBase batchSize).filterMap (cpuHit c s checkTarget)) := by
  have hnonces : (List.range batchSize).map buffers.nonces = batchNonces s nonceBase batchSize :=
    List.map_congr_left fun j hj => h.nonce j (List.mem_range.mp hj)
  rw [filterRows, zipIdx_nonces, foldlM_filterRow h hv _ (fun i hi => List.mem_range.mp hi),
    List.nil_append, hnonces]

end

/-- The loop on a device that computes right is the `search` the miners are given. -/
theorem search_eq_filterMap (c : Crates) (s : State) (nonceBase : U64) (batchSize : ℕ)
    (checkTarget : Uint256) : search c s nonceBase batchSize checkTarget
      = (batchNonces s nonceBase batchSize).filterMap (cpuHit c s checkTarget) := by
  rw [search, filterCandidates, List.filterMap_map]
  rfl

/-! ### Both backends -/

section

variable {s : State} {nonceBase : U64} {checkTarget : Uint256} {buffers : DeviceBuffers}

theorem diagnoseArgonMemory_append {argon : HashWithMemory} {password salt : List Byte}
    (hp : password.length = 72) (hs : salt.length = 16)
    (hargon : ∃ memory, argon password salt = .ok memory) (rest : List Byte) :
    OpenClSearcher.diagnoseArgonMemory argon (password ++ (salt ++ rest)) = .ok () := by
  have h0 : (sliceOf (password ++ (salt ++ rest)) 0 72 : Outcome Error (List Byte))
      = .ok password := sliceOf_append [] password (salt ++ rest) rfl (by omega)
  have h72 : (sliceOf (password ++ (salt ++ rest)) 72 88 : Outcome Error (List Byte))
      = .ok salt := sliceOf_append password salt rest hp (by omega)
  obtain ⟨memory, hmemory⟩ := hargon
  rw [OpenClSearcher.diagnoseArgonMemory, h0, Outcome.ok_bind, h72, Outcome.ok_bind, hmemory]
  rfl

/-- The crate accepts the password and the salt of a row. -/
theorem OpenClSearcher.validate_preparedRow {argon : HashWithMemory}
    (hargon : ∀ password salt : List Byte, password.length = 72 → salt.length = 16 →
      ∃ memory, argon password salt = .ok memory) (nonce : U64) :
    OpenClSearcher.validate argon (preparedRow c s nonce) (GpuRow.correct c s nonce)
      = .ok () := by
  rw [OpenClSearcher.validate, preparedRow]
  simp only [List.append_assoc]
  exact diagnoseArgonMemory_append Vector.length_toList Vector.length_toList
    (hargon _ _ Vector.length_toList Vector.length_toList) _

theorem CudaSearcher.validate_preparedRow (nonce : U64) :
    CudaSearcher.validate c s (preparedRow c s nonce) (GpuRow.correct c s nonce) = .ok () := by
  rw [CudaSearcher.validate]
  exact if_neg fun h => h rfl

theorem Driver.launch_eq_ok {driver : Driver} {batchSize : ℕ} {start : DeviceBuffers} :
    driver.launch batchSize s nonceBase start = .ok buffers
      ↔ ∃ first, driver.prepare batchSize s nonceBase start = .ok first
        ∧ driver.finish batchSize first = .ok buffers := by
  rw [Driver.launch]
  cases driver.prepare batchSize s nonceBase start with
  | error e =>
    constructor
    · intro h
      cases h
    · rintro ⟨first, h, -⟩
      cases h
  | ok first =>
    constructor
    · intro h
      exact ⟨first, rfl, h⟩
    · rintro ⟨first', h, h'⟩
      cases h
      exact h'

theorem OpenClSearcher.search_of_holds {driver : Driver} {argon : HashWithMemory}
    (hargon : ∀ password salt : List Byte, password.length = 72 → salt.length = 16 →
      ∃ memory, argon password salt = .ok memory) (self : OpenClSearcher)
    (hlaunch : driver.launch self.batchSize s nonceBase self.buffers = .ok buffers)
    (h : Holds c s nonceBase self.batchSize buffers) :
    (OpenClSearcher.search c driver argon s nonceBase checkTarget self).1
      = .ok ((batchNonces s nonceBase self.batchSize).filterMap (cpuHit c s checkTarget)) := by
  obtain ⟨first, hfirst, hlast⟩ := Driver.launch_eq_ok.mp hlaunch
  have hfilter : (filterRows c (validate argon) s checkTarget self.batchSize buffers
      self.fullValidationDone).1 = _ := filterRows_of_holds h (validate_preparedRow hargon) _
  simp only [OpenClSearcher.search, hfirst, OpenClSearcher.validateInitialBlocksOnce, hlast]
  exact hfilter

theorem CudaSearcher.search_of_holds {driver : Driver} (self : CudaSearcher)
    (hlaunch : driver.launch self.batchSize s nonceBase self.buffers = .ok buffers)
    (h : Holds c s nonceBase self.batchSize buffers) :
    (CudaSearcher.search c driver s nonceBase checkTarget self).1
      = .ok ((batchNonces s nonceBase self.batchSize).filterMap (cpuHit c s checkTarget)) := by
  have hfilter : (filterRows c (validate c s) s checkTarget self.batchSize buffers
      self.validationDone).1 = _ := filterRows_of_holds h validate_preparedRow _
  simp only [CudaSearcher.search, hlaunch]
  exact hfilter

end

/-! ### A device that computes right -/

/-- The nonce of a row, as `velkar_export_stage4` reads it. -/
def rowNonce (jobInputs : Buffer Byte) (j : ℕ) : U64 :=
  ofLe 8 fun k => jobInputs (j * JOB_INPUT_BYTES + 88 + k)

/-- The rows of all nonces from a base on. -/
def idealInputs (c : Crates) (s : State) (nonceBase : U64) : Buffer Byte := fun i =>
  (preparedRow c s (s.applyExtranonce (nonceBase + BitVec.ofNat 64 (i / JOB_INPUT_BYTES)))).getD
    (i % JOB_INPUT_BYTES) 0

/-- The fourth stages of the nonces that rows contain. -/
def idealHashes (c : Crates) (s : State) (jobInputs : Buffer Byte) : Buffer Byte := fun i =>
  (GpuRow.correct c s (rowNonce jobInputs (i / 32))).stage4.toLeBytes.toList.getD (i % 32) 0

/-- Kernels that leave the rows and the hashes of the CPU. -/
def idealDriver (c : Crates) (s : State) : Driver where
  velkarPrepareJobs _ args buffers :=
    .ok { buffers with jobInputs := idealInputs c s args.nonceBase }
  velkarInitFirstBlocks _ _ _ buffers := .ok buffers
  argon2KernelOneshotPrecompute _ _ _ _ buffers := .ok buffers
  velkarExportStage4 _ _ _ buffers :=
    .ok { buffers with
      stage4 := idealHashes c s buffers.jobInputs
      nonces := rowNonce buffers.jobInputs }

theorem length_preparedRow (c : Crates) (s : State) (nonce : U64) :
    (preparedRow c s nonce).length = JOB_INPUT_BYTES := by
  rw [preparedRow, List.length_append, List.length_append, List.length_append, length_rowHead,
    Vector.length_toList, Vector.length_toList, Vector.length_toList]
  rfl

theorem getD_preparedRow_nonce (c : Crates) (s : State) (nonce : U64) {k : ℕ} (hk : k < 8) :
    (preparedRow c s nonce).getD (88 + k) 0 = leByte nonce k := by
  set row := GpuRow.correct c s nonce with hrow
  have hhead : ((memoryHardPassword row.stage3 nonce s.blockTarget).toList
      ++ (memoryHardSalt row.stage1 row.stage3).toList).length = 88 := by
    rw [List.length_append, Vector.length_toList, Vector.length_toList]
  have hnonce : (leBytes nonce).length = 8 := by simp [leBytes]
  rw [preparedRow, ← hrow, List.append_assoc, List.append_assoc, List.append_assoc,
    List.getD_append_right _ _ _ _ (by omega), hhead, Nat.add_sub_cancel_left,
    List.getD_append _ _ _ _ (by omega)]
  simp [leBytes, List.getD_eq_getElem?_getD, hk]

/-- A list, repeated with a stride, is read back from each of its places. -/
theorem bytesAt_stride {stride : ℕ} (f : ℕ → List Byte) (hf : ∀ j, (f j).length = stride) (j : ℕ) :
    bytesAt (fun i => (f (i / stride)).getD (i % stride) 0) (j * stride) stride = f j := by
  apply List.ext_getElem
  · rw [length_bytesAt, hf]
  · intro i h₁ h₂
    have hi : i < stride := by simpa using h₁
    have hd : (j * stride + i) / stride = j := by
      rw [Nat.mul_comm, Nat.mul_add_div (by omega), Nat.div_eq_of_lt hi, Nat.add_zero]
    have hm : (j * stride + i) % stride = i := by
      rw [Nat.mul_comm, Nat.mul_add_mod, Nat.mod_eq_of_lt hi]
    simp only [bytesAt, List.getElem_map, List.getElem_range, hd, hm]
    exact List.getD_eq_getElem _ _ h₂

theorem bytesAt_idealInputs (c : Crates) (s : State) (nonceBase : U64) (j : ℕ) :
    bytesAt (idealInputs c s nonceBase) (j * JOB_INPUT_BYTES) JOB_INPUT_BYTES
      = preparedRow c s (s.applyExtranonce (nonceBase + BitVec.ofNat 64 j)) :=
  bytesAt_stride (fun j => preparedRow c s (s.applyExtranonce (nonceBase + BitVec.ofNat 64 j)))
    (fun _ => length_preparedRow c s _) j

theorem rowNonce_idealInputs (c : Crates) (s : State) (nonceBase : U64) (j : ℕ) :
    rowNonce (idealInputs c s nonceBase) j
      = s.applyExtranonce (nonceBase + BitVec.ofNat 64 j) := by
  rw [rowNonce, ← ofLe_leByte (s.applyExtranonce (nonceBase + BitVec.ofNat 64 j)) (n := 8)
    (by norm_num)]
  apply ofLe_congr
  intro k hk
  have hlt : 88 + k < JOB_INPUT_BYTES := by
    show 88 + k < 192
    omega
  rw [← getD_preparedRow_nonce c s _ hk, ← bytesAt_idealInputs]
  simp [bytesAt, List.getD_eq_getElem?_getD, hlt, Nat.add_assoc]

/-- What those kernels leave in the buffers. -/
def idealBuffers (c : Crates) (s : State) (nonceBase : U64) (start : DeviceBuffers) :
    DeviceBuffers :=
  { uploadConstants s start with
    jobInputs := idealInputs c s nonceBase
    stage4 := idealHashes c s (idealInputs c s nonceBase)
    nonces := rowNonce (idealInputs c s nonceBase) }

theorem idealDriver_launch (c : Crates) (s : State) (nonceBase : U64) (batchSize : ℕ)
    (start : DeviceBuffers) : (idealDriver c s).launch batchSize s nonceBase start
      = .ok (idealBuffers c s nonceBase start) := by
  -- unfolding by rewriting: evaluation would go through the bytes of the rows
  simp only [Driver.launch, Driver.prepare, Driver.finish, idealDriver, bind, Except.bind,
    idealBuffers]

theorem bytesAt_idealHashes (c : Crates) (s : State) (nonceBase : U64) (j : ℕ) :
    bytesAt (idealHashes c s (idealInputs c s nonceBase)) (j * 32) 32
      = (GpuRow.correct c s
          (s.applyExtranonce (nonceBase + BitVec.ofNat 64 j))).stage4.toLeBytes.toList := by
  rw [← rowNonce_idealInputs c s nonceBase j]
  exact bytesAt_stride
    (fun j => (GpuRow.correct c s (rowNonce (idealInputs c s nonceBase) j)).stage4.toLeBytes.toList)
    (fun _ => Vector.length_toList) j

/-- Such a device satisfies what the searchers rely on. -/
theorem idealBuffers_holds (c : Crates) (s : State) (nonceBase : U64) (batchSize : ℕ)
    (start : DeviceBuffers) :
    Holds c s nonceBase batchSize (idealBuffers c s nonceBase start) := by
  constructor
  · intro j _
    simp only [idealBuffers]
    exact bytesAt_idealInputs c s nonceBase j
  · intro j _
    simp only [idealBuffers]
    exact bytesAt_idealHashes c s nonceBase j
  · intro j _
    simp only [idealBuffers]
    exact rowNonce_idealInputs c s nonceBase j

/-- Either backend, validating or not, returns in job order the nonces of the batch whose
proof of work meets the target, each with it; and the three versions of the final
mixing agree. -/
theorem host_filter_exact (c : Crates) (driver : Driver) (argon : HashWithMemory)
    (hargon : ∀ password salt : List Byte, password.length = 72 → salt.length = 16 →
      ∃ memory, argon password salt = .ok memory) (s : State) :
    (∀ (searcher : GpuSearcher) (nonceBase : U64) (checkTarget : Uint256)
        (buffers : DeviceBuffers),
      driver.launch searcher.batchSize s nonceBase searcher.buffers = .ok buffers →
      Holds c s nonceBase searcher.batchSize buffers →
      (searcher.search c driver argon s nonceBase checkTarget).1
        = .ok ((batchNonces s nonceBase searcher.batchSize).filterMap fun nonce =>
            if ({ s with nonce := nonce } : State).calculatePow c ≤ checkTarget then
              some ⟨nonce, ({ s with nonce := nonce } : State).calculatePow c⟩ else none))
    ∧ (∀ nonce : U64,
      let stage1 := s.stage1ForNonce c nonce
      let stage2 := s.stage2ForStage1 c stage1
      let stage3 := State.stage3ForStage2 c stage2
      ({ s with nonce := nonce } : State).calculatePow c
          = s.calculatePowFromParts c stage1 stage2 stage3 nonce)
    ∧ ∀ (stage1 stage2 stage3 : Hash) (nonce : U64),
      s.calculatePowFromParts c stage1 stage2 stage3 nonce
        = s.calculatePowFromGpuStage4 c stage1 stage2 stage3
            (s.cpuStage4FromParts c stage1 stage3 nonce) nonce := by
  refine ⟨?_, fun _ => rfl, fun _ _ _ _ => rfl⟩
  intro searcher nonceBase checkTarget buffers hlaunch h
  cases searcher with
  | openCl self => exact self.search_of_holds hargon hlaunch h
  | cuda self => exact self.search_of_holds hlaunch h

def sampleBuffers : DeviceBuffers := ⟨fun _ => 0, fun _ => 0, fun _ => 0, fun _ => 0, fun _ => 0⟩

/-- The first, validating call of an OpenCL searcher, on a batch of two nonces. -/
theorem host_filter_exact_sample :
    (GpuSearcher.search State.sampleCrates
        (idealDriver State.sampleCrates State.sampleState)
        (fun _ _ => .ok (Vector.replicate 8192 Argon2.zeroBlock))
        State.sampleState 1 State.samplePow
        (.openCl ⟨2, Nat.two_pos, sampleBuffers, false, false⟩)).1
      = .ok ((batchNonces State.sampleState 1 2).filterMap
          (cpuHit State.sampleCrates State.sampleState State.samplePow)) :=
  (host_filter_exact State.sampleCrates (idealDriver State.sampleCrates State.sampleState)
    (fun _ _ => .ok (Vector.replicate 8192 Argon2.zeroBlock))
    (fun _ _ _ _ => ⟨_, rfl⟩) State.sampleState).1
    (.openCl ⟨2, Nat.two_pos, sampleBuffers, false, false⟩) 1 State.samplePow _
    (idealDriver_launch _ _ _ _ _) (idealBuffers_holds _ _ _ _ _)
