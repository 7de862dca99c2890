/-
The sizes of a launch (`src/gpu.rs`, `src/cuda.rs`).

The kernels take no length, so that every index they use must be made safe by the sizes
that the host chooses: the batch fits into the memory of the device, and the number of jobs
in a work-group divides the batch.  Both are found by counting down to a divisor.

* `divisorBelow_spec`, `helperBlockBelow_spec` — the two loops end at a divisor;
* `openClSizes_spec`, `cudaBatchSize_spec` — the batch of either backend;
* `existsUnique_item` — in a launch with such sizes every index belongs to one thread;
* `launch_geometry_safe` — every job is run once and inside its buffers.
-/
import VelkarMiner.Searchers
import VelkarMiner.ReferenceTable

open Rust

namespace Launch

/-! ### Sizes on the host -/

def THREADS_PER_LANE : ℕ := 32

/-- The settings that the sizes depend on. -/
structure GpuConfig where
  batchSize : ℕ
  jobsPerBlock : Option ℕ

/-- What an OpenCL device answers; a query that fails gives `none`. -/
structure Device where
  maxMemAllocSize : Option U64
  globalMemSize : Option U64
  maxWorkGroupSize : Option U64

/-- `Ord::clamp`. -/
def clamp (x lo hi : ℕ) : Outcome Error ℕ :=
  if hi < lo then .panic else .ok (if x < lo then lo else if hi < x then hi else x)

/-- `while jobs_per_block > 1 && batch_size % jobs_per_block != 0 { jobs_per_block -= 1 }`. -/
def divisorBelow (batchSize : ℕ) : ℕ → ℕ
  | 0 => 0
  | jobs + 1 =>
    if jobs + 1 > 1 ∧ batchSize % (jobs + 1) ≠ 0 then divisorBelow batchSize jobs else jobs + 1

/-- `while self.batch_size % helper_block != 0 { helper_block -= 1 }`. -/
def helperBlockBelow (batchSize : ℕ) : ℕ → Outcome Error ℕ
  | 0 => .panic
  | block + 1 =>
    if batchSize % (block + 1) ≠ 0 then helperBlockBelow batchSize block else .ok (block + 1)

/-- The memory an OpenCL device has for the jobs. -/
def Device.cap (device : Device) : ℕ :=
  let maxAlloc := (device.maxMemAllocSize.getD (128 * 1024 * 1024)).toNat
  let globalMem := (device.globalMemSize.getD (512 * 1024 * 1024)).toNat
  min maxAlloc (globalMem / 2)

def Device.maxWg (device : Device) : ℕ := (device.maxWorkGroupSize.getD 64).toNat

/-- The sizes of an OpenCL searcher. -/
structure OpenClSizes where
  memoryPerJob : ℕ
  batchSize : ℕ
  jobsPerBlock : ℕ

/-- The sizing in `OpenClSearcher::new`. -/
def openClSizes (config : GpuConfig) (device : Device) : Outcome Error OpenClSizes := do
  let memoryPerJob := memoryPerJobBytes
  let maxJobsByMem ← clamp (device.cap / memoryPerJob) 1 4096
  let requested := max 1 config.batchSize
  let batchSize := min requested maxJobsByMem
  let warps ← clamp (device.maxWg / THREADS_PER_LANE) 1 32
  let maxJobsPerBlock := min warps batchSize
  let jobsPerBlock ← clamp (config.jobsPerBlock.getD 1) 1 maxJobsPerBlock
  pure ⟨memoryPerJob, batchSize, divisorBelow batchSize jobsPerBlock⟩

/-- The local scratch of `run_argon_kernel`: two words for each thread. -/
def OpenClSizes.shmemBytes (sizes : OpenClSizes) : ℕ :=
  let lanesPerBlock := 1
  THREADS_PER_LANE * lanesPerBlock * sizes.jobsPerBlock * 4 * 2

/-- The batch in `CudaSearcher::new`. -/
def cudaBatchSize (config : GpuConfig) (totalMemory : U64) : Outcome Error ℕ := do
  let maxByMemory ← clamp (totalMemory.toNat / 2 / memoryPerJobBytes) 1 4096
  pure (min (max config.batchSize 1) maxByMemory)

/-- `helper_block` in `CudaSearcher::search`. -/
def cudaHelperBlock (batchSize : ℕ) : Outcome Error ℕ :=
  helperBlockBelow batchSize (min batchSize 256)

def SEGMENT_BLOCKS : ℕ := ARGON_MEMORY_KIB / (ARGON2_SYNC_POINTS * ARGON_LANES)
def ARGON2_REFS_PER_BLOCK : ℕ := ARGON2_BLOCK_BYTES / (2 * 4)
def segmentAddrBlocks : ℕ := (SEGMENT_BLOCKS + ARGON2_REFS_PER_BLOCK - 1) / ARGON2_REFS_PER_BLOCK
def segments : ℕ := ARGON_LANES * (ARGON2_SYNC_POINTS / 2)

def refsBufferBytes : ℕ := segments * segmentAddrBlocks * ARGON2_REFS_PER_BLOCK * 2 * 4

/-- The global size of `argon2_precompute_kernel`. -/
def precomputeThreads : ℕ := THREADS_PER_LANE * segments * segmentAddrBlocks

/-- The local scratch of `argon2_precompute_kernel`. -/
def precomputeShmemBytes : ℕ := THREADS_PER_LANE * 4 * 2

/-! ### Indexes on the device -/

/-- `get_global_id(0)` of CUDA, in 32 bits. -/
def cudaGlobalId (blockIdx blockDim threadIdx : U32) : U32 := blockIdx * blockDim + threadIdx

/-- `warp` of `argon2_kernel_oneshot_precompute`. -/
def warpOf (lanes localId0 localId1 : ℕ) : ℕ := localId1 * lanes + localId0 / THREADS_PER_LANE

/-- The end of the memory of a job in `argon2_kernel_oneshot_precompute`, in bytes. -/
def jobEnd (lanes segmentBlocks jobId : ℕ) : ℕ :=
  (jobId + 1) * lanes * (ARGON2_SYNC_POINTS * segmentBlocks) * ARGON2_BLOCK_BYTES

/-- The places of `lo[k]` and `hi[k]` of `shuffle_bufs[warp]`, in bytes. -/
def shuffleBytes (warp k : ℕ) : List ℕ :=
  [2 * (4 * THREADS_PER_LANE) * warp + 4 * k,
    2 * (4 * THREADS_PER_LANE) * warp + 4 * THREADS_PER_LANE + 4 * k]

/-- The threads whose slots thread `thread` reads: `thread_src` at all calls of `u64_shuffle`. -/
def threadSources (thread : ℕ) : List ℕ :=
  0 :: (List.range 4).flatMap fun i =>
    [Kernel.applyShuffleShift1 thread i, Kernel.applyShuffleUnshift1 thread i,
      Kernel.applyShuffleShift2 thread i, Kernel.applyShuffleUnshift2 thread i,
      (i <<< 2) ^^^ thread]

/-- The warp of a thread of `argon2_precompute_kernel` writes entry `a` of the table. -/
def WritesRef (amdMediaOps : Bool) (thread a : ℕ) : Prop :=
  ∃ refs, Kernel.argon2PrecomputeKernel amdMediaOps (BitVec.ofNat 32 ARGON_TIME_COST)
    (BitVec.ofNat 32 ARGON_LANES) (BitVec.ofNat 32 SEGMENT_BLOCKS) refs
    (BitVec.ofNat 32 (thread / THREADS_PER_LANE)) a ≠ refs a

/-! ### Counting down to a divisor -/

theorem clamp_eq {x lo hi : ℕ} (h : lo ≤ hi) : clamp x lo hi = .ok (max lo (min x hi)) := by
  rw [clamp, if_neg (by omega)]
  congr 1
  split
  · omega
  · split <;> omega

/-- The count never passes one, which divides everything. -/
theorem divisorBelow_spec (batchSize : ℕ) {jobs : ℕ} (h : 1 ≤ jobs) :
    1 ≤ divisorBelow batchSize jobs ∧ divisorBelow batchSize jobs ≤ jobs
      ∧ divisorBelow batchSize jobs ∣ batchSize := by
  induction jobs with
  | zero => omega
  | succ jobs ih =>
    rw [divisorBelow]
    split
    case isTrue hgo =>
      obtain ⟨hpos, hle, hdvd⟩ := ih (by omega)
      exact ⟨hpos, by omega, hdvd⟩
    case isFalse hstop =>
      refine ⟨by omega, le_refl _, ?_⟩
      by_cases hone : jobs + 1 > 1
      · exact Nat.dvd_of_mod_eq_zero (by_contra fun hmod => hstop ⟨hone, hmod⟩)
      · have hjobs : jobs + 1 = 1 := by omega
        rw [hjobs]
        exact one_dvd batchSize

theorem helperBlockBelow_spec (batchSize : ℕ) {block : ℕ} (h : 1 ≤ block) :
    ∃ helperBlock, helperBlockBelow batchSize block = .ok helperBlock
      ∧ 1 ≤ helperBlock ∧ helperBlock ≤ block ∧ helperBlock ∣ batchSize := by
  induction block with
  | zero => omega
  | succ block ih =>
    rw [helperBlockBelow]
    by_cases hmod : batchSize % (block + 1) = 0
    · rw [if_neg (not_not.mpr hmod)]
      exact ⟨block + 1, rfl, by omega, le_refl _, Nat.dvd_of_mod_eq_zero hmod⟩
    · rw [if_pos hmod]
      -- one leaves no remainder, so that the count has not come down to it
      have hpos : 1 ≤ block := by
        by_contra hzero
        have hblock : block + 1 = 1 := by omega
        rw [hblock, Nat.mod_one] at hmod
        exact hmod rfl
      obtain ⟨helperBlock, hrun, hone, hle, hdvd⟩ := ih hpos
      exact ⟨helperBlock, hrun, hone, by omega, hdvd⟩

/-! ### The batch -/

theorem batch_spec {requested cap : ℕ} (hrequested : 1 ≤ requested)
    (hcap : memoryPerJobBytes ≤ cap) :
    1 ≤ min requested (max 1 (min (cap / memoryPerJobBytes) 4096))
      ∧ min requested (max 1 (min (cap / memoryPerJobBytes) 4096)) ≤ 4096
      ∧ min requested (max 1 (min (cap / memoryPerJobBytes) 4096)) * memoryPerJobBytes ≤ cap := by
  have hpos : 1 ≤ cap / memoryPerJobBytes := (Nat.one_le_div_iff (by decide)).mpr hcap
  refine ⟨by omega, by omega, ?_⟩
  have hle : min requested (max 1 (min (cap / memoryPerJobBytes) 4096))
      ≤ cap / memoryPerJobBytes := by omega
  exact (Nat.mul_le_mul_right _ hle).trans (Nat.div_mul_le_self cap memoryPerJobBytes)

theorem openClSizes_spec (config : GpuConfig) {device : Device}
    (hcap : memoryPerJobBytes ≤ device.cap) (hwg : 32 ≤ device.maxWg) :
    ∃ sizes, openClSizes config device = .ok sizes ∧ sizes.memoryPerJob = memoryPerJobBytes
      ∧ (1 ≤ sizes.batchSize ∧ sizes.batchSize ≤ 4096
        ∧ sizes.batchSize * memoryPerJobBytes ≤ device.cap)
      ∧ 1 ≤ sizes.jobsPerBlock ∧ sizes.jobsPerBlock ∣ sizes.batchSize
      ∧ 32 * sizes.jobsPerBlock ≤ device.maxWg := by
  obtain ⟨hone, hmax, hmem⟩ := batch_spec (le_max_left 1 config.batchSize) hcap
  set batchSize := min (max 1 config.batchSize)
    (max 1 (min (device.cap / memoryPerJobBytes) 4096)) with hbatch
  set maxJobsPerBlock := min (max 1 (min (device.maxWg / THREADS_PER_LANE) 32)) batchSize
    with hblocks
  set jobsPerBlock := max 1 (min (config.jobsPerBlock.getD 1) maxJobsPerBlock) with hjobs
  have hthreads : THREADS_PER_LANE = 32 := rfl
  have hle : jobsPerBlock ≤ device.maxWg / 32 := by
    rw [hthreads] at hblocks
    omega
  obtain ⟨hjobsPos, hjobsLe, hdvd⟩ := divisorBelow_spec batchSize (show 1 ≤ jobsPerBlock by omega)
  refine ⟨⟨memoryPerJobBytes, batchSize, divisorBelow batchSize jobsPerBlock⟩, ?_, rfl,
    ⟨hone, hmax, hmem⟩, hjobsPos, hdvd, ?_⟩
  · have hrange : 1 ≤ maxJobsPerBlock := by omega
    rw [openClSizes, clamp_eq (by omega), Outcome.ok_bind, clamp_eq (by omega), Outcome.ok_bind]
    dsimp only
    rw [← hbatch, ← hblocks, clamp_eq hrange, Outcome.ok_bind]
    rfl
  · show 32 * divisorBelow batchSize jobsPerBlock ≤ device.maxWg
    omega

theorem cudaBatchSize_spec (config : GpuConfig) {totalMemory : U64}
    (hcap : memoryPerJobBytes ≤ totalMemory.toNat / 2) :
    ∃ batchSize, cudaBatchSize config totalMemory = .ok batchSize
      ∧ 1 ≤ batchSize ∧ batchSize ≤ 4096
        ∧ batchSize * memoryPerJobBytes ≤ totalMemory.toNat / 2 := by
  refine ⟨_, ?_, batch_spec (le_max_right config.batchSize 1) hcap⟩
  rw [cudaBatchSize, clamp_eq (by omega)]
  rfl

/-! ### Threads -/

/-- Every index belongs to one thread of one group. -/
theorem existsUnique_item {groups size j : ℕ} (hj : j < groups * size) :
    ∃! item : ℕ × ℕ, item.1 < groups ∧ item.2 < size ∧ item.1 * size + item.2 = j := by
  have hsize : 0 < size := Nat.pos_of_ne_zero fun h => by simp [h] at hj
  refine ⟨(j / size, j % size), ⟨Nat.div_lt_of_lt_mul (Nat.mul_comm groups size ▸ hj),
    Nat.mod_lt j hsize, Nat.div_add_mod' j size⟩, ?_⟩
  rintro ⟨group, index⟩ ⟨-, hindex, hsum⟩
  obtain ⟨hdiv, hmod⟩ := (Nat.div_mod_unique hsize).mpr
    ⟨(by rw [Nat.add_comm, Nat.mul_comm]; exact hsum : index + size * group = j), hindex⟩
  exact Prod.ext hdiv.symm hmod.symm

/-- In 32 bits as well, since there are at most 4096 jobs. -/
theorem existsUnique_cuda {batchSize helperBlock : ℕ} (hbatch : batchSize ≤ 4096)
    (hpos : 1 ≤ helperBlock) (hdvd : helperBlock ∣ batchSize) (hle : helperBlock ≤ batchSize)
    {job : ℕ} (hjob : job < batchSize) :
    ∃! item : U32 × U32, item.1 < BitVec.ofNat 32 (batchSize / helperBlock)
      ∧ item.2 < BitVec.ofNat 32 helperBlock
      ∧ (cudaGlobalId item.1 (BitVec.ofNat 32 helperBlock) item.2).toNat = job := by
  have hgrid : batchSize / helperBlock * helperBlock = batchSize := Nat.div_mul_cancel hdvd
  have hgridLe : batchSize / helperBlock ≤ batchSize := Nat.div_le_self _ _
  have hgridVal : (BitVec.ofNat 32 (batchSize / helperBlock)).toNat = batchSize / helperBlock :=
    (BitVec.toNat_ofNat _ 32).trans (Nat.mod_eq_of_lt (by omega))
  have hblockVal : (BitVec.ofNat 32 helperBlock).toNat = helperBlock :=
    (BitVec.toNat_ofNat _ 32).trans (Nat.mod_eq_of_lt (by omega))
  -- the global id of a thread of the launch does not wrap
  have hid : ∀ block index : U32, block.toNat < batchSize / helperBlock →
      index.toNat < helperBlock →
      (cudaGlobalId block (BitVec.ofNat 32 helperBlock) index).toNat
        = block.toNat * helperBlock + index.toNat := by
    intro block index hblock hindex
    have hbound : (block.toNat + 1) * helperBlock ≤ batchSize :=
      (Nat.mul_le_mul_right helperBlock hblock).trans hgrid.le
    rw [Nat.add_mul, Nat.one_mul] at hbound
    rw [cudaGlobalId, BitVec.toNat_add, BitVec.toNat_mul, hblockVal,
      Nat.mod_eq_of_lt (show block.toNat * helperBlock < 2 ^ 32 by omega),
      Nat.mod_eq_of_lt (by omega)]
  obtain ⟨⟨group, index⟩, ⟨hgroup, hindex, hsum⟩, hunique⟩ :=
    existsUnique_item (hgrid.symm ▸ hjob)
  dsimp only at hgroup hindex hsum
  have hgroupVal : (BitVec.ofNat 32 group).toNat = group :=
    (BitVec.toNat_ofNat _ 32).trans (Nat.mod_eq_of_lt (by omega))
  have hindexVal : (BitVec.ofNat 32 index).toNat = index :=
    (BitVec.toNat_ofNat _ 32).trans (Nat.mod_eq_of_lt (by omega))
  refine ⟨(BitVec.ofNat 32 group, BitVec.ofNat 32 index), ⟨?_, ?_, ?_⟩, ?_⟩
  · rw [BitVec.lt_def, hgroupVal, hgridVal]
    exact hgroup
  · rw [BitVec.lt_def, hindexVal, hblockVal]
    exact hindex
  · rw [hid _ _ (hgroupVal.symm ▸ hgroup) (hindexVal.symm ▸ hindex), hgroupVal, hindexVal, hsum]
  · rintro ⟨block, thread⟩ ⟨hblock, hthread, hjobEq⟩
    dsimp only at hblock hthread hjobEq
    rw [BitVec.lt_def, hgridVal] at hblock
    rw [BitVec.lt_def, hblockVal] at hthread
    rw [hid block thread hblock hthread] at hjobEq
    have hsame := hunique (block.toNat, thread.toNat) ⟨hblock, hthread, hjobEq⟩
    rw [Prod.mk.injEq] at hsame
    refine Prod.ext (BitVec.eq_of_toNat_eq ?_) (BitVec.eq_of_toNat_eq ?_)
    · exact hsame.1.trans hgroupVal.symm
    · exact hsame.2.trans hindexVal.symm

/-! ### Buffers -/

theorem threadSources_lt : ∀ thread < 32, ∀ source ∈ threadSources thread, source < 32 := by decide

/-- A thread shuffles with the threads of its own warp. -/
theorem source_lt {thread k : ℕ} (hthread : thread < 32)
    (hk : k ∈ thread :: threadSources thread) : k < 32 := by
  rcases List.mem_cons.mp hk with rfl | hk
  · exact hthread
  · exact threadSources_lt thread hthread k hk

theorem warpOf_lt {localId0 localId1 jobs : ℕ} (h0 : localId0 < 32) (h1 : localId1 < jobs) :
    warpOf ARGON_LANES localId0 localId1 < jobs := by
  have hthreads : THREADS_PER_LANE = 32 := rfl
  have hlanes : ARGON_LANES = 1 := rfl
  rw [warpOf, hthreads, hlanes]
  omega

theorem warpOf_zero {localId0 : ℕ} (h0 : localId0 < 32) : warpOf 0 localId0 0 < 1 := by
  have hthreads : THREADS_PER_LANE = 32 := rfl
  rw [warpOf, hthreads]
  omega

theorem shmemBytes_eq (sizes : OpenClSizes) : sizes.shmemBytes = 256 * sizes.jobsPerBlock := by
  have hthreads : THREADS_PER_LANE = 32 := rfl
  rw [OpenClSizes.shmemBytes, hthreads]
  omega

/-- A job has 8 MiB. -/
theorem jobEnd_eq (job : ℕ) :
    jobEnd ARGON_LANES SEGMENT_BLOCKS job = (job + 1) * (8 * 1024 * 1024) := by
  have hlanes : ARGON_LANES = 1 := rfl
  have hblocks : ARGON2_SYNC_POINTS * SEGMENT_BLOCKS = 8192 := rfl
  have hblock : ARGON2_BLOCK_BYTES = 1024 := rfl
  rw [jobEnd, hlanes, hblocks, hblock]
  omega

/-- A warp of the group stays inside the scratch. -/
theorem shuffleBytes_le {warp warps k : ℕ} (hwarp : warp < warps) (hk : k < 32) :
    ∀ place ∈ shuffleBytes warp k, place + 4 ≤ 256 * warps := by
  intro place hplace
  have hthreads : THREADS_PER_LANE = 32 := rfl
  rw [shuffleBytes, hthreads, List.mem_pair] at hplace
  omega

/-- The first entry of each warp of the table. -/
theorem first_entry_le : ∀ blockId < 32,
    (BitVec.ofNat 32 blockId / ((BitVec.ofNat 32 SEGMENT_BLOCKS + 128 - 1) / 128)
      * BitVec.ofNat 32 SEGMENT_BLOCKS).toNat ≤ 2048 := by decide

theorem writesRef_le {amdMediaOps : Bool} {thread a : ℕ} (hthread : thread < precomputeThreads)
    (h : WritesRef amdMediaOps thread a) : (a + 1) * 8 ≤ refsBufferBytes := by
  obtain ⟨refs, hwrite⟩ := h
  have htotal : precomputeThreads = 1024 := rfl
  have hbytes : refsBufferBytes = 4096 * 8 := rfl
  have hthreads : THREADS_PER_LANE = 32 := rfl
  have hfirst := first_entry_le (thread / 32) (by omega)
  by_contra hout
  refine hwrite (Kernel.argon2PrecomputeKernel_frame _ _ _ _ _ _ fun offset hoffset => ?_)
  have hblocks : (BitVec.ofNat 32 SEGMENT_BLOCKS).toNat = 2048 := by decide
  rw [hblocks] at hoffset
  rw [hthreads]
  omega

/-- Whatever is configured and whatever the device has, as long as one job fits: every job is
run once and inside its buffers. -/
theorem launch_geometry_safe :
    (∀ (config : GpuConfig) (device : Device), 8 * 1024 * 1024 ≤ device.cap → 32 ≤ device.maxWg →
      ∃ sizes, openClSizes config device = .ok sizes
        ∧ (1 ≤ sizes.batchSize ∧ sizes.batchSize ≤ 4096
          ∧ sizes.batchSize * (8 * 1024 * 1024) ≤ device.cap)
        ∧ sizes.jobsPerBlock ∣ sizes.batchSize
        ∧ 32 * sizes.jobsPerBlock ≤ device.maxWg
        ∧ (∀ localId0 < 32, ∀ localId1 < sizes.jobsPerBlock,
          ∀ k ∈ localId0 :: threadSources localId0,
          ∀ place ∈ shuffleBytes (warpOf ARGON_LANES localId0 localId1) k,
            place + 4 ≤ sizes.shmemBytes)
        ∧ ∀ job < sizes.batchSize,
          jobEnd ARGON_LANES SEGMENT_BLOCKS job ≤ sizes.memoryPerJob * sizes.batchSize
            ∧ ∃! item : ℕ × ℕ, item.1 < sizes.batchSize / sizes.jobsPerBlock
              ∧ item.2 < sizes.jobsPerBlock ∧ item.1 * sizes.jobsPerBlock + item.2 = job)
      ∧ (∀ (amdMediaOps : Bool) (thread : ℕ), thread < precomputeThreads →
        (∀ a, WritesRef amdMediaOps thread a → (a + 1) * 8 ≤ refsBufferBytes)
          ∧ ∀ k ∈ thread % 32 :: threadSources (thread % 32),
            ∀ place ∈ shuffleBytes (warpOf 0 (thread % 32) 0) k, place + 4 ≤ precomputeShmemBytes)
      ∧ ∀ (config : GpuConfig) (totalMemory : U64), 8 * 1024 * 1024 ≤ totalMemory.toNat / 2 →
        ∃ batchSize helperBlock, cudaBatchSize config totalMemory = .ok batchSize
          ∧ (1 ≤ batchSize ∧ batchSize ≤ 4096
            ∧ batchSize * (8 * 1024 * 1024) ≤ totalMemory.toNat / 2)
          ∧ cudaHelperBlock batchSize = .ok helperBlock
          ∧ helperBlock ≤ 256
          ∧ batchSize / helperBlock * helperBlock = batchSize
          ∧ ∀ job < batchSize,
            ∃! item : U32 × U32, item.1 < BitVec.ofNat 32 (batchSize / helperBlock)
              ∧ item.2 < BitVec.ofNat 32 helperBlock
              ∧ (cudaGlobalId item.1 (BitVec.ofNat 32 helperBlock) item.2).toNat = job := by
  have hmemory : memoryPerJobBytes = 8 * 1024 * 1024 := rfl
  refine ⟨fun config device hcap hwg => ?_, fun amdMediaOps thread hthread => ⟨?_, ?_⟩,
    fun config totalMemory hcap => ?_⟩
  · obtain ⟨sizes, hrun, hper, hbatch, hpos, hdvd, hgroup⟩ := openClSizes_spec config hcap hwg
    rw [hmemory] at hbatch hper
    refine ⟨sizes, hrun, hbatch, hdvd, hgroup, ?_, fun job hjob => ⟨?_, ?_⟩⟩
    · intro localId0 hlocal0 localId1 hlocal1 k hk place hplace
      rw [shmemBytes_eq]
      exact shuffleBytes_le (warpOf_lt hlocal0 hlocal1) (source_lt hlocal0 hk) place hplace
    · -- the jobs up to this one fill the front of the buffer
      rw [jobEnd_eq, hper, Nat.mul_comm (8 * 1024 * 1024)]
      exact Nat.mul_le_mul_right _ hjob
    · have hgroups : sizes.batchSize / sizes.jobsPerBlock * sizes.jobsPerBlock = sizes.batchSize :=
        Nat.div_mul_cancel hdvd
      exact existsUnique_item (hgroups.symm ▸ hjob)
  · exact fun a => writesRef_le hthread
  · -- the table is computed by groups of one warp
    intro k hk place hplace
    have hlocal : thread % 32 < 32 := Nat.mod_lt _ (by omega)
    exact shuffleBytes_le (warpOf_zero hlocal) (source_lt hlocal hk) place hplace
  · obtain ⟨batchSize, hrun, hbatch⟩ := cudaBatchSize_spec config hcap
    rw [hmemory] at hbatch
    obtain ⟨hone, hmax, hmem⟩ := hbatch
    obtain ⟨helperBlock, hhelper, hpos, hle, hdvd⟩ :=
      helperBlockBelow_spec batchSize (show 1 ≤ min batchSize 256 by omega)
    refine ⟨batchSize, helperBlock, hrun, ⟨hone, hmax, hmem⟩, hhelper, by omega,
      Nat.div_mul_cancel hdvd, fun job hjob => ?_⟩
    exact existsUnique_cuda hmax hpos hdvd (by omega) hjob

/-- Batches of 30 jobs on a device of 1 GiB, four of them asked for in a work-group, and of 300 jobs
on one of 8 GiB. -/
theorem launch_geometry_sample :
    (openClSizes ⟨30, some 4⟩ ⟨some 268435456, some 1073741824, some 256⟩ = .ok ⟨8388608, 30, 3⟩
      ∧ 3 ∣ 30 ∧ 32 * 3 ≤ 256)
      ∧ (∀ a, WritesRef false 1023 a → (a + 1) * 8 ≤ refsBufferBytes)
      ∧ cudaBatchSize ⟨300, none⟩ 8589934592 = .ok 300 ∧ cudaHelperBlock 300 = .ok 150
        ∧ 300 / 150 * 150 = 300 := by
  obtain ⟨hopenCl, hrefs, hcuda⟩ := launch_geometry_safe
  obtain ⟨sizes, hsizes, -, hdvd, hgroup, -⟩ := hopenCl ⟨30, some 4⟩
    ⟨some 268435456, some 1073741824, some 256⟩ (by decide) (by decide)
  obtain ⟨batchSize, helperBlock, hbatch, -, hhelper, -, hgrid, -⟩ :=
    hcuda ⟨300, none⟩ 8589934592 (by decide)
  have hthree : openClSizes ⟨30, some 4⟩ ⟨some 268435456, some 1073741824, some 256⟩
      = .ok ⟨8388608, 30, 3⟩ := rfl
  have h300 : cudaBatchSize ⟨300, none⟩ 8589934592 = .ok 300 := rfl
  have h150 : cudaHelperBlock 300 = .ok 150 := rfl
  obtain rfl : sizes = ⟨8388608, 30, 3⟩ := Outcome.ok.inj (hsizes.symm.trans hthree)
  obtain rfl : batchSize = 300 := Outcome.ok.inj (hbatch.symm.trans h300)
  obtain rfl : helperBlock = 150 := Outcome.ok.inj (hhelper.symm.trans h150)
  exact ⟨⟨hthree, hdvd, hgroup⟩, (hrefs false 1023 (by decide)).1, h300, h150, hgrid⟩

end Launch
