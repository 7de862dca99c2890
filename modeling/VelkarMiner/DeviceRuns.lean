/-
A searcher and its kernels (`src/gpu.rs`, `src/cuda.rs`, `src/argon2_kernel.cl`).

The buffers of a device outlive a search, and nothing orders the jobs of one launch.
A `Schedule` is what a launch leaves open: the order of the jobs of each helper
kernel, the interleaving of the fill and the contents of private memory.

* `Kernel.driver` — the four kernels as the driver of a searcher;
* `launch_holds` — what they leave behind, whatever was in the buffers;
* `searches_exact` — every search of a run returns the hits of the CPU.
-/
import VelkarMiner.KeccakCall
import VelkarMiner.MemoryFill
import VelkarMiner.PrepareJobs

open Bytes Rust

/-- The crate's Argon2id is that of RFC 9106, on passwords and salts as the miner has them. -/
def Crates.Argon2idRight (c : Crates) : Prop :=
  ∀ password salt : List Byte, password.length = 72 → salt.length = 16 →
    (c.argon2id ARGON_MEMORY_KIB ARGON_TIME_COST ARGON_LANES password salt).toList
      = Argon2.argon2id minerParams 32 ARGON_MEMORY_KIB password salt [] []

namespace Kernel

/-! ### The kernels as a driver -/

/-- The orders and the private memory of the launches over `n` jobs. -/
structure Schedule (n : ℕ) where
  prepares : List ℕ
  prepares_perm : prepares.Perm (List.range n)
  inits : List ℕ
  inits_perm : inits.Perm (List.range n)
  run : (passes segmentBlocks : U32) → Loops.Interleaving (launchProgram passes segmentBlocks n)
  exports : List ℕ
  exports_perm : exports.Perm (List.range n)
  prepareUninit : ℕ → Buffer Byte
  initUninit : ℕ → Buffer Byte
  exportUninit : ℕ → Buffer Byte
  regs : ℕ → LaneRegs

/-- A device whose table of references has been computed. -/
structure Device where
  amdMediaOps : Bool
  refs : Buffer Ref
  warps : List ℕ
  warps_perm : warps.Perm (List.range 32)

def Device.table (device : Device) : Buffer Ref :=
  precomputeTable device.amdMediaOps device.warps device.refs

/-- The launches of a search. -/
def driver (device : Device) (schedule : (n : ℕ) → Schedule n) : Driver where
  velkarPrepareJobs n args buffers :=
    .ok { buffers with
      jobInputs := (schedule n).prepares.foldl (fun jobInputs job =>
        velkarPrepareJobs ((schedule n).prepareUninit job) jobInputs buffers.constants
          args.inputPerJob args.nonceBase args.nonceMask args.nonceFixed args.target
          (BitVec.ofNat 64 job)) buffers.jobInputs }
  velkarInitFirstBlocks n memoryPerJob inputPerJob buffers :=
    .ok { buffers with
      memory := (schedule n).inits.foldl (fun memory job =>
        velkarInitFirstBlocks ((schedule n).initUninit job) memory buffers.jobInputs memoryPerJob
          inputPerJob (BitVec.ofNat 64 job)) buffers.memory }
  argon2KernelOneshotPrecompute n passes lanes segmentBlocks buffers :=
    .ok { buffers with
      memory := memoryBytes (((schedule n).run passes segmentBlocks).order.foldl
        (launchTurn device.amdMediaOps device.table lanes segmentBlocks)
        ⟨memoryWords buffers.memory, (schedule n).regs⟩).memory }
  velkarExportStage4 n memoryPerJob inputPerJob buffers :=
    let out := (schedule n).exports.foldl (fun out job =>
      velkarExportStage4 ((schedule n).exportUninit job) buffers.memory buffers.jobInputs
        memoryPerJob inputPerJob (BitVec.ofNat 64 job) out.1 out.2)
      (buffers.stage4, buffers.nonces)
    .ok { buffers with stage4 := out.1, nonces := out.2 }

/-! ### The rows of a batch -/

section

variable {c : Crates} (s : State) (buffers : DeviceBuffers)

theorem row_eq {job : ℕ} (hjob : job < 2 ^ 32) :
    (BitVec.ofNat 64 job * BitVec.ofNat 64 JOB_INPUT_BYTES).toNat = job * JOB_INPUT_BYTES := by
  have hbytes : JOB_INPUT_BYTES = 192 := rfl
  rw [hbytes, BitVec.toNat_mul, BitVec.toNat_ofNat, BitVec.toNat_ofNat]
  omega

/-- The row of every job, the jobs in any order. -/
theorem rows_right (hf : ∀ A, c.f1600 A = Keccak.keccakF A) (uninit : ℕ → Buffer Byte)
    (jobInputs : Buffer Byte) (startNonce : U64) {batchSize : ℕ} (hbatch : batchSize ≤ 2 ^ 32)
    {jobs : List ℕ} (hjobs : jobs.Perm (List.range batchSize)) {job : ℕ} (hjob : job < batchSize) :
    bytesAt (jobs.foldl (fun jobInputs job => velkarPrepareJobs (uninit job) jobInputs
        (uploadConstants s buffers).constants (BitVec.ofNat 64 JOB_INPUT_BYTES) startNonce
        s.nonceMask s.nonceFixed s.blockTarget.words (BitVec.ofNat 64 job)) jobInputs)
        (job * JOB_INPUT_BYTES) JOB_INPUT_BYTES
      = preparedRow c s (s.applyExtranonce (startNonce + BitVec.ofNat 64 job)) := by
  refine Loops.foldl_reach
    (P := fun jobInputs : Buffer Byte => bytesAt jobInputs (job * JOB_INPUT_BYTES) JOB_INPUT_BYTES
      = preparedRow c s (s.applyExtranonce (startNonce + BitVec.ofNat 64 job)))
    (fun jobInputs j hj hrow => ?_) (hjobs.mem_iff.mpr (List.mem_range.mpr hjob))
    (fun jobInputs => ?_) jobInputs
  · have hj' := List.mem_range.mp (hjobs.mem_iff.mp hj)
    obtain ⟨hbytes, hframe⟩ := velkarPrepareJobs_spec s buffers hf (uninit j) jobInputs
      (BitVec.ofNat 64 JOB_INPUT_BYTES) startNonce (BitVec.ofNat 64 j)
    rw [row_eq (by omega)] at hbytes hframe
    by_cases hsame : job = j
    · rw [hsame]
      exact hbytes
    · refine (bytesAt_congr fun i hi => hframe _ ?_).trans hrow
      have hwidth : JOB_INPUT_BYTES = 192 := rfl
      rw [hwidth] at hi ⊢
      omega
  · have hbytes := (velkarPrepareJobs_spec s buffers hf (uninit job) jobInputs
      (BitVec.ofNat 64 JOB_INPUT_BYTES) startNonce (BitVec.ofNat 64 job)).1
    rwa [row_eq (by omega)] at hbytes

end

/-- The nonces that a batch exports are those of its rows. -/
theorem nonces_right (uninit : ℕ → Buffer Byte) (memory jobInputs stage4Out : Buffer Byte)
    (nonceOut : Buffer U64) (memoryPerJob inputPerJob : U64) {batchSize : ℕ}
    (hbatch : batchSize ≤ 2 ^ 32) {jobs : List ℕ} (hjobs : jobs.Perm (List.range batchSize))
    {job : ℕ} (hjob : job < batchSize) :
    (jobs.foldl (fun out job => velkarExportStage4 (uninit job) memory jobInputs memoryPerJob
        inputPerJob (BitVec.ofNat 64 job) out.1 out.2) (stage4Out, nonceOut)).2 job
      = load64Le jobInputs ((BitVec.ofNat 64 job * inputPerJob).toNat + 88) := by
  have hindex : ∀ j < batchSize, (BitVec.ofNat 64 j).toNat = j := by
    intro j hj
    rw [BitVec.toNat_ofNat]
    omega
  refine Loops.foldl_reach
    (P := fun out : Buffer Byte × Buffer U64 => out.2 job
      = load64Le jobInputs ((BitVec.ofNat 64 job * inputPerJob).toNat + 88))
    (fun out j hj hout => ?_) (hjobs.mem_iff.mpr (List.mem_range.mpr hjob)) (fun out => ?_)
    (stage4Out, nonceOut)
  · have hj' := List.mem_range.mp (hjobs.mem_iff.mp hj)
    simp only [velkarExportStage4, hindex j hj']
    by_cases hsame : job = j
    · rw [hsame, Function.update_self]
    · rw [Function.update_of_ne hsame]
      exact hout
  · simp only [velkarExportStage4, hindex job hjob, Function.update_self]

/-! ### A launch -/

section

variable {c : Crates} {s : State} {nonceBase : U64} {batchSize : ℕ}

/-- The parts of the row of a nonce. -/
structure HoldsRow (c : Crates) (s : State) (nonce : U64) (jobInputs : Buffer Byte) (off : ℕ) :
    Prop where
  password : bytesAt jobInputs off 72
    = (memoryHardPassword (GpuRow.correct c s nonce).stage3 nonce s.blockTarget).toList
  salt : bytesAt jobInputs (off + 72) 16
    = (memoryHardSalt (GpuRow.correct c s nonce).stage1 (GpuRow.correct c s nonce).stage3).toList
  nonce_eq : bytesAt jobInputs (off + 88) 8 = leBytes nonce
  stage1 : bytesAt jobInputs (off + 96) 32 = (GpuRow.correct c s nonce).stage1.toLeBytes.toList
  stage2 : bytesAt jobInputs (off + 128) 32 = (GpuRow.correct c s nonce).stage2.toLeBytes.toList
  stage3 : bytesAt jobInputs (off + 160) 32 = (GpuRow.correct c s nonce).stage3.toLeBytes.toList

theorem holdsRow {jobInputs : Buffer Byte} {off : ℕ} {nonce : U64}
    (h : bytesAt jobInputs off JOB_INPUT_BYTES = preparedRow c s nonce) :
    HoldsRow c s nonce jobInputs off := by
  have hsplit : JOB_INPUT_BYTES = 72 + (16 + (8 + (32 + (32 + 32)))) := rfl
  rw [hsplit, bytesAt_add, bytesAt_add, bytesAt_add, bytesAt_add, bytesAt_add, preparedRow,
    List.append_assoc, List.append_assoc, List.append_assoc, List.append_assoc] at h
  obtain ⟨hpassword, h⟩ := List.append_inj h (by simp)
  obtain ⟨hsalt, h⟩ := List.append_inj h (by simp)
  obtain ⟨hnonce, h⟩ := List.append_inj h (by simp [leBytes])
  obtain ⟨hstage1, h⟩ := List.append_inj h (by simp)
  obtain ⟨hstage2, hstage3⟩ := List.append_inj h (by simp)
  exact ⟨hpassword, hsalt, hnonce, hstage1, hstage2, hstage3⟩

theorem HoldsRow.load_nonce {jobInputs : Buffer Byte} {off : ℕ} {nonce : U64}
    (h : HoldsRow c s nonce jobInputs off) : load64Le jobInputs (off + 88) = nonce := by
  rw [← ofLe_leByte nonce (n := 8) (by norm_num)]
  apply ofLe_congr
  intro k hk
  have hbyte : jobInputs (off + 88 + k) = (leBytes nonce).getD k 0 := by
    rw [← h.nonce_eq, getD_bytesAt, if_pos hk]
  rw [hbyte]
  simp [leBytes, List.getD_eq_getElem?_getD, hk]

/-- The fourth stage is Argon2id of the password and the salt in the row. -/
theorem HoldsRow.argon2id {jobInputs : Buffer Byte} {off : ℕ} {nonce : U64}
    (h : HoldsRow c s nonce jobInputs off) (hargon : c.Argon2idRight) :
    Argon2.argon2id minerParams 32 ARGON_MEMORY_KIB (bytesAt jobInputs off 72)
        (bytesAt jobInputs (off + 72) 16) [] []
      = (GpuRow.correct c s nonce).stage4.toLeBytes.toList := by
  rw [h.password, h.salt, ← hargon _ _ Vector.length_toList Vector.length_toList, GpuRow.correct,
    State.cpuStage4FromParts, memoryHardHash, Uint256.toLeBytes_fromLeBytes]

variable (device : Device) (schedule : (n : ℕ) → Schedule n)

/-- The rows that the first launch leaves, the constants of the job uploaded. -/
def preparedInputs (s : State) (nonceBase : U64) (batchSize : ℕ) (buffers : DeviceBuffers) :
    Buffer Byte :=
  (schedule batchSize).prepares.foldl (fun jobInputs job =>
    velkarPrepareJobs ((schedule batchSize).prepareUninit job) jobInputs buffers.constants
      (BitVec.ofNat 64 JOB_INPUT_BYTES) nonceBase s.nonceMask s.nonceFixed s.blockTarget.toLeU64
      (BitVec.ofNat 64 job)) buffers.jobInputs

/-- The memory that the fill leaves. -/
def filledMemory (jobInputs memory : Buffer Byte) (batchSize : ℕ) : Buffer Byte :=
  let first := (schedule batchSize).inits.foldl (fun memory job =>
    velkarInitFirstBlocks ((schedule batchSize).initUninit job) memory jobInputs
      (BitVec.ofNat 64 memoryPerJobBytes) (BitVec.ofNat 64 JOB_INPUT_BYTES) (BitVec.ofNat 64 job))
    memory
  memoryBytes (((schedule batchSize).run 1 2048).order.foldl
    (launchTurn device.amdMediaOps device.table 1 2048)
    ⟨memoryWords first, (schedule batchSize).regs⟩).memory

/-- What the last launch reads out of them. -/
def exported (jobInputs memory : Buffer Byte) (batchSize : ℕ) (buffers : DeviceBuffers) :
    Buffer Byte × Buffer U64 :=
  (schedule batchSize).exports.foldl (fun out job =>
    velkarExportStage4 ((schedule batchSize).exportUninit job) memory jobInputs
      (BitVec.ofNat 64 memoryPerJobBytes) (BitVec.ofNat 64 JOB_INPUT_BYTES) (BitVec.ofNat 64 job)
      out.1 out.2) (buffers.stage4, buffers.nonces)

theorem driver_launch (start : DeviceBuffers) :
    (driver device schedule).launch batchSize s nonceBase start
      = .ok (let buffers := uploadConstants s start
        let jobInputs := preparedInputs schedule s nonceBase batchSize buffers
        let memory := filledMemory device schedule jobInputs buffers.memory batchSize
        let out := exported schedule jobInputs memory batchSize buffers
        ⟨memory, buffers.constants, jobInputs, out.1, out.2⟩) := by
  have hpasses : BitVec.ofNat 32 ARGON_TIME_COST = 1 := rfl
  have hlanes : BitVec.ofNat 32 ARGON_LANES = 1 := rfl
  have hsegment : BitVec.ofNat 32 (ARGON_MEMORY_KIB / (ARGON2_SYNC_POINTS * ARGON_LANES)) = 2048 :=
    rfl
  -- the uploaded buffers stay closed: their bytes would be evaluated one by one
  generalize hbuffers : uploadConstants s start = buffers
  simp only [Driver.launch, Driver.prepare, Driver.finish, driver, bind, Except.bind, hbuffers,
    hpasses, hlanes, hsegment, preparedInputs, filledMemory, exported]

/-- After the launches of a search the buffers hold what the CPU computes for each nonce of the
batch, whatever they held before and however the jobs were ordered. -/
theorem launch_holds (hf : ∀ A, c.f1600 A = Keccak.keccakF A) (hargon : c.Argon2idRight)
    (hbatch : batchSize ≤ 2 ^ 32) (start : DeviceBuffers) :
    ∃ buffers, (driver device schedule).launch batchSize s nonceBase start = .ok buffers
      ∧ Holds c s nonceBase batchSize buffers := by
  refine ⟨_, driver_launch device schedule start, ?_⟩
  set buffers := uploadConstants s start with hbuffers
  set jobInputs := preparedInputs schedule s nonceBase batchSize buffers with hinputs
  -- the rows are not written again after the first launch
  have hrow : ∀ j < batchSize, bytesAt jobInputs (j * JOB_INPUT_BYTES) JOB_INPUT_BYTES
      = preparedRow c s (s.applyExtranonce (nonceBase + BitVec.ofNat 64 j)) :=
    fun j hj => rows_right s start hf (schedule batchSize).prepareUninit buffers.jobInputs nonceBase
      hbatch (schedule batchSize).prepares_perm hj
  refine ⟨hrow, fun j hj => ?_, fun j hj => ?_⟩
  · have hstage4 := stage4_is_argon2id device.amdMediaOps device.refs device.warps_perm hbatch
      ((schedule batchSize).run 1 2048) (schedule batchSize).regs (schedule batchSize).initUninit
      (schedule batchSize).exportUninit buffers.memory jobInputs buffers.stage4 buffers.nonces
      (BitVec.ofNat 64 JOB_INPUT_BYTES) (schedule batchSize).inits_perm
      (schedule batchSize).exports_perm hj
    simp only at hstage4
    rw [row_eq (by omega), (holdsRow (hrow j hj)).argon2id hargon, Nat.mul_comm] at hstage4
    exact hstage4
  · have hnonce := nonces_right (schedule batchSize).exportUninit
      (filledMemory device schedule jobInputs buffers.memory batchSize) jobInputs buffers.stage4
      buffers.nonces (BitVec.ofNat 64 memoryPerJobBytes) (BitVec.ofNat 64 JOB_INPUT_BYTES) hbatch
      (schedule batchSize).exports_perm hj
    rw [row_eq (by omega), (holdsRow (hrow j hj)).load_nonce] at hnonce
    exact hnonce

end

end Kernel

/-! ### Runs of searches -/

/-- One call of `search`, and how its launches go. -/
structure SearchCall where
  state : State
  nonceBase : U64
  checkTarget : Uint256
  schedule : (n : ℕ) → Kernel.Schedule n

/-- Calls one after the other, on the buffers that the last one has left. -/
def searches (c : Crates) (device : Kernel.Device) (argon : HashWithMemory)
    (searcher : GpuSearcher) :
    List SearchCall → List (Outcome Error (List GpuHit))
  | [] => []
  | call :: calls =>
    let r := searcher.search c (Kernel.driver device call.schedule) argon call.state call.nonceBase
      call.checkTarget
    r.1 :: searches c device argon r.2 calls

section

variable {c : Crates} {argon : HashWithMemory}

theorem GpuSearcher.batchSize_search (argon : HashWithMemory) (driver : Driver) (state : State)
    (nonceBase : U64) (checkTarget : Uint256) (searcher : GpuSearcher) :
    (searcher.search c driver argon state nonceBase checkTarget).2.batchSize
      = searcher.batchSize := by
  cases searcher with
  | openCl self =>
    simp only [GpuSearcher.search, GpuSearcher.batchSize, OpenClSearcher.search,
      OpenClSearcher.validateInitialBlocksOnce, OpenClSearcher.exportAndFilterCandidates]
    split
    · rfl
    · split <;> rfl
  | cuda self =>
    simp only [GpuSearcher.search, GpuSearcher.batchSize, CudaSearcher.search]
    split <;> rfl

/-- One search over the kernels. -/
theorem search_exact (hf : ∀ A, c.f1600 A = Keccak.keccakF A) (hargon : c.Argon2idRight)
    (hcrate : ∀ password salt : List Byte, password.length = 72 → salt.length = 16 →
      ∃ memory, argon password salt = .ok memory) (device : Kernel.Device)
    (schedule : (n : ℕ) → Kernel.Schedule n) (searcher : GpuSearcher)
    (hbatch : searcher.batchSize ≤ 2 ^ 32) (state : State) (nonceBase : U64)
    (checkTarget : Uint256) :
    (searcher.search c (Kernel.driver device schedule) argon state nonceBase checkTarget).1
      = .ok (search c state nonceBase searcher.batchSize checkTarget) := by
  obtain ⟨buffers, hlaunch, hholds⟩ := Kernel.launch_holds (s := state) (c := c) device schedule hf
    hargon hbatch searcher.buffers
  rw [search_eq_filterMap]
  cases searcher with
  | openCl self => exact self.search_of_holds hcrate hlaunch hholds
  | cuda self => exact self.search_of_holds hlaunch hholds

/-- Every search of a run returns, in job order, the nonces of its batch whose proof of work meets
the target, each with it: on either backend, whatever the buffers held at first, whatever the job
before has left in them, however the jobs of a launch were ordered. -/
theorem searches_exact (hf : c.CallsAssembly) (hargon : c.Argon2idRight)
    (hcrate : ∀ password salt : List Byte, password.length = 72 → salt.length = 16 →
      ∃ memory, argon password salt = .ok memory) (device : Kernel.Device)
    (searcher : GpuSearcher) (hbatch : searcher.batchSize ≤ 2 ^ 32) (calls : List SearchCall) :
    searches c device argon searcher calls = calls.map fun call =>
      .ok ((batchNonces call.state call.nonceBase searcher.batchSize).filterMap fun nonce =>
        if ({ call.state with nonce := nonce } : State).calculatePow c ≤ call.checkTarget then
          some ⟨nonce, ({ call.state with nonce := nonce } : State).calculatePow c⟩ else none) := by
  induction calls generalizing searcher with
  | nil => rfl
  | cons call calls ih =>
    have hsize := searcher.batchSize_search (c := c) argon (Kernel.driver device call.schedule)
      call.state call.nonceBase call.checkTarget
    rw [searches, List.map_cons, ih _ (hsize ▸ hbatch), hsize,
      search_exact hf.f1600_eq hargon hcrate device call.schedule searcher hbatch,
      search_eq_filterMap]
    rfl

end

/-! ### A device -/

/-- Crates that follow their standards. -/
def standardCrates : Crates where
  f1600 := Keccak.keccakF
  blake2b n key data := Vector.ofFn fun i => (Blake2b.hash n key data).getD i.val 0
  argon2id _ _ _ password salt := Vector.ofFn fun i =>
    (Argon2.argon2id minerParams 32 ARGON_MEMORY_KIB password salt [] []).getD i.val 0

theorem standardCrates_argon2id : standardCrates.Argon2idRight := by
  intro password salt _ _
  have hlength :
      (Argon2.argon2id minerParams 32 ARGON_MEMORY_KIB password salt [] []).length = 32 := by
    rw [Argon2.argon2id, Kernel.tag_eq]
    exact Blake2b.length_hash (show 32 ≤ 64 by omega) _ _
  apply List.ext_getElem
  · rw [Vector.length_toList, hlength]
  · intro i h₁ h₂
    simp only [standardCrates, Vector.getElem_toList, Vector.getElem_ofFn]
    exact List.getD_eq_getElem _ _ h₂

theorem standardCrates_blake2b : standardCrates.Blake2bRight := fun n key data =>
  blake2bCrates_right n key data

theorem launchProgram_of_ge (passes segmentBlocks : U32) {n job : ℕ} (h : n ≤ job) :
    Kernel.launchProgram passes segmentBlocks n job = [] :=
  if_neg (Nat.not_lt.mpr h)

/-- Jobs one after the other, the exports in reverse. -/
def sampleSchedule (n : ℕ) : Kernel.Schedule n where
  prepares := List.range n
  prepares_perm := List.Perm.refl _
  inits := List.range n
  inits_perm := List.Perm.refl _
  run passes segmentBlocks :=
    Loops.oneByOne n fun _ => launchProgram_of_ge passes segmentBlocks
  exports := (List.range n).reverse
  exports_perm := List.reverse_perm _
  prepareUninit _ _ := 0
  initUninit _ _ := 0
  exportUninit _ _ := 0
  regs _ := ⟨fun _ => ⟨0, 0, 0, 0⟩, 0, 0, 0⟩

def sampleDevice : Kernel.Device := ⟨false, fun _ => ⟨0, 0⟩, List.range 32, List.Perm.refl _⟩

def sampleSearcher : GpuSearcher := .cuda ⟨2, Nat.two_pos, sampleBuffers, false⟩

/-- Two searches with batches of two nonces; the second finds the buffers as the first has left
them. -/
theorem searches_exact_twice :
    searches standardCrates sampleDevice (fun _ _ => .ok (Vector.replicate 8192 Argon2.zeroBlock))
        sampleSearcher
        [⟨State.sampleState, 1, State.samplePow, sampleSchedule⟩,
          ⟨State.sampleState, 3, State.samplePow, sampleSchedule⟩]
      = [.ok ((batchNonces State.sampleState 1 2).filterMap
            (cpuHit standardCrates State.sampleState State.samplePow)),
          .ok ((batchNonces State.sampleState 3 2).filterMap
            (cpuHit standardCrates State.sampleState State.samplePow))] := by
  have hbatch : sampleSearcher.batchSize ≤ 2 ^ 32 := show 2 ≤ 2 ^ 32 by omega
  have hassembly : standardCrates.CallsAssembly := callsAssembly_of_keccakF fun _ => rfl
  exact searches_exact hassembly standardCrates_argon2id (fun _ _ _ _ => ⟨_, rfl⟩) sampleDevice
    sampleSearcher hbatch _
