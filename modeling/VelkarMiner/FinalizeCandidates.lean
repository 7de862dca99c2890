/-
The filter of the device (`velkar_finalize_candidates`, `finalize_candidates`).

Besides the export there is a kernel that goes on to the proof of work and compares
it with the target itself; the host then reads one word for each job, zero for
none.  It is the filter of the host again, except that a hit of nonce zero cannot
be told from no hit.

* `velkarFinalizeCandidates_spec` — the word of a job;
* `finalize_candidates_exact` — both filters keep the same nonces, but for zero.
-/
import VelkarMiner.DeviceRuns

open Bytes Rust

/-! ### The kernel -/

namespace Kernel

/-- The comparison at the end of the kernel. -/
def meetsCheck (words check : Vector U64 4) : Bool :=
  if words.get 3 < check.get 3 then true
  else if words.get 3 = check.get 3 then
    if words.get 2 < check.get 2 then true
    else if words.get 2 = check.get 2 then
      if words.get 1 < check.get 1 then true
      else decide (words.get 1 = check.get 1 ∧ words.get 0 ≤ check.get 0)
    else false
  else false

/-- The four assignments `words[i] ^= ..`. -/
def mixStages (words : Vector U64 4) (stage1₀ stage2₁ stage3₂ stage4₃ nonce : U64) : Vector U64 4 :=
  let words := put words 0 (words.get 0 ^^^ rotl64 stage1₀ 17)
  let words := put words 1 (words.get 1 ^^^ rotl64 stage2₁ 53)
  let words := put words 2 (words.get 2 ^^^ rotl64 stage3₂ 7)
  put words 3 (words.get 3 ^^^ (rotl64 stage4₃ 13 ^^^ rotl64 nonce 13))

/-- `velkar_finalize_candidates` for one job. -/
def velkarFinalizeCandidates (uninit memory jobInputs : Buffer Byte)
    (memoryPerJob inputPerJob : U64) (targets check : Vector U64 4) (job : U64)
    (foundNonces : Buffer U64) : Buffer U64 :=
  let input := (job * inputPerJob).toNat
  let lastBlock := (job * memoryPerJob).toNat + memoryPerJob.toNat - 1024
  let stage4 := blake2bHash32PrefixBlockGlobal uninit uninit fun i => memory (lastBlock + i)
  let finalData := writeAt uninit 0 32 fun i => stage4 i
  let finalData := writeAt finalData 32 8 fun i => jobInputs (input + 88 + i)
  let foundNonces := Function.update foundNonces job.toNat 0
  let finalData := storeWords finalData 40 targets
  let stage5 := blake2bKeyedPow72 uninit uninit finalData
  let words : Vector U64 4 := Vector.ofFn fun w => load64Le stage5 (w.val * 8)
  let nonce := load64Le jobInputs (input + 88)
  let stage1₀ := load64Le jobInputs (input + 96)
  let stage2₁ := load64Le jobInputs (input + 128 + 8)
  let stage3₂ := load64Le jobInputs (input + 160 + 16)
  let stage4₃ := load64Le stage4 24
  let words := mixStages words stage1₀ stage2₁ stage3₂ stage4₃ nonce
  if meetsCheck words check then Function.update foundNonces job.toNat nonce else foundNonces

/-- The comparison is that of the integers. -/
theorem meetsCheck_iff (words : Vector U64 4) (check : Uint256) :
    meetsCheck words check.toLeU64 = true ↔ Uint256.fromLeU64 words ≤ check := by
  have h0 := (words.get 0).isLt
  have h1 := (words.get 1).isLt
  have h2 := (words.get 2).isLt
  have k0 := (check.toLeU64.get 0).isLt
  have k1 := (check.toLeU64.get 1).isLt
  have k2 := (check.toLeU64.get 2).isLt
  rw [Uint256.le_iff]
  show _ ↔ (words.get 0).toNat + 2 ^ 64 * ((words.get 1).toNat + 2 ^ 64 * ((words.get 2).toNat
      + 2 ^ 64 * (words.get 3).toNat))
    ≤ (check.toLeU64.get 0).toNat + 2 ^ 64 * ((check.toLeU64.get 1).toNat
      + 2 ^ 64 * ((check.toLeU64.get 2).toNat + 2 ^ 64 * (check.toLeU64.get 3).toNat))
  simp only [meetsCheck, BitVec.lt_def, BitVec.le_def, ← BitVec.toNat_inj]
  -- the first word that differs, from the top, decides
  split
  case isTrue h => exact iff_of_true rfl (by omega)
  case isFalse hlt3 =>
    split
    case isFalse heq3 => exact iff_of_false Bool.false_ne_true (by omega)
    case isTrue heq3 =>
      split
      case isTrue hlt2 => exact iff_of_true rfl (by omega)
      case isFalse hlt2 =>
        split
        case isFalse heq2 => exact iff_of_false Bool.false_ne_true (by omega)
        case isTrue heq2 =>
          split
          case isTrue hlt1 => exact iff_of_true rfl (by omega)
          case isFalse hlt1 =>
            rw [decide_eq_true_iff]
            omega

/-! ### What the kernel reads -/

/-- A word of an integer that lies in a buffer. -/
theorem load64Le_word {b : Buffer Byte} {off : ℕ} {x : Uint256}
    (h : bytesAt b off 32 = x.toLeBytes.toList) (w : Fin 4) :
    load64Le b (off + w.val * 8) = x.toLeU64.get w := by
  rw [← ofLe_leByte (x.toLeU64.get w) (n := 8) (by norm_num)]
  apply ofLe_congr
  intro k hk
  have hd : (w.val * 8 + k) / 8 = w.val := by omega
  have hm : (w.val * 8 + k) % 8 = k := by omega
  have hbyte : b (off + w.val * 8 + k) = x.toLeBytes.toList.getD (w.val * 8 + k) 0 := by
    rw [← h, getD_bytesAt, if_pos (by omega), Nat.add_assoc]
  rw [hbyte, getD_toLeBytes _ (by omega), Uint256.getElem_toLeBytes]
  simp only [hd, hm]
  rfl

theorem rotl64_eq_rotateRight (x : U64) : rotl64 x 53 = x.rotateRight 11 := by
  rw [rotl64, BitVec.rotateRight]
  exact BitVec.or_comm _ _

/-- The message of the last stage. -/
theorem bytesAt_finalData {uninit stage4 jobInputs : Buffer Byte} {off : ℕ} {x target : Uint256}
    {nonce : U64} (hstage4 : bytesAt stage4 0 32 = x.toLeBytes.toList)
    (hnonce : bytesAt jobInputs (off + 88) 8 = leBytes nonce) :
    bytesAt (storeWords (writeAt (writeAt uninit 0 32 fun i => stage4 i) 32 8
        fun i => jobInputs (off + 88 + i)) 40 target.toLeU64) 0 72
      = x.toLeBytes.toList ++ leBytes nonce ++ target.toLeBytes.toList := by
  have hbytes : (List.range 8).map (fun i => jobInputs (off + 88 + i)) = leBytes nonce := hnonce
  have htarget : (List.range 32).map (wordByte target.toLeU64) = target.toLeBytes.toList :=
    map_wordByte target
  rw [storeWords_eq, bytesAt_writeAt_end _ _ (show 72 = 40 + 32 by rfl),
    bytesAt_writeAt_end _ _ (show 40 = 32 + 8 by rfl), bytesAt_writeAt, map_eq_bytesAt, hstage4,
    hbytes, htarget]

theorem mixStages_eq (words : Vector U64 4) (stage1₀ stage2₁ stage3₂ stage4₃ nonce : U64) :
    mixStages words stage1₀ stage2₁ stage3₂ stage4₃ nonce
      = #v[words.get 0 ^^^ stage1₀.rotateLeft 17, words.get 1 ^^^ stage2₁.rotateRight 11,
        words.get 2 ^^^ stage3₂.rotateLeft 7,
        words.get 3 ^^^ stage4₃.rotateLeft 13 ^^^ nonce.rotateLeft 13] := by
  rw [← rotl64_eq stage1₀ (by omega), ← rotl64_eq_rotateRight, ← rotl64_eq stage3₂ (by omega),
    ← rotl64_eq stage4₃ (by omega), ← rotl64_eq nonce (by omega), BitVec.xor_assoc]
  apply Vector.ext
  intro i hi
  show (mixStages words stage1₀ stage2₁ stage3₂ stage4₃ nonce).get ⟨i, hi⟩ = _
  simp only [mixStages, get_put, Fin.reduceEq, if_false]
  have hcases : i = 0 ∨ i = 1 ∨ i = 2 ∨ i = 3 := by omega
  rcases hcases with rfl | rfl | rfl | rfl <;> rfl

section

variable {c : Crates} {s : State} {nonce : U64} {uninit memory jobInputs : Buffer Byte}
  {memoryPerJob inputPerJob job : U64}

/-- The word of a job is its nonce if the proof of work meets the target, zero if not; the other
words are left alone. -/
theorem velkarFinalizeCandidates_spec (hc : c.Blake2bRight) (check : Uint256)
    (hrow : HoldsRow c s nonce jobInputs (job * inputPerJob).toNat)
    (hstage4 : bytesAt (blake2bHash32PrefixBlockGlobal uninit uninit fun i => memory
        ((job * memoryPerJob).toNat + memoryPerJob.toNat - 1024 + i)) 0 32
      = (GpuRow.correct c s nonce).stage4.toLeBytes.toList) (foundNonces : Buffer U64) :
    velkarFinalizeCandidates uninit memory jobInputs memoryPerJob inputPerJob
        s.blockTarget.toLeU64 check.toLeU64 job foundNonces
      = Function.update foundNonces job.toNat
          (if ({ s with nonce := nonce } : State).calculatePow c ≤ check then nonce else 0) := by
  set row := GpuRow.correct c s nonce with hrows
  set stage4 := blake2bHash32PrefixBlockGlobal uninit uninit fun i => memory
    ((job * memoryPerJob).toNat + memoryPerJob.toNat - 1024 + i) with hdigest
  set off := (job * inputPerJob).toNat with hoff
  set finalData := storeWords (writeAt (writeAt uninit 0 32 fun i => stage4 i) 32 8
    fun i => jobInputs (off + 88 + i)) 40 s.blockTarget.toLeU64 with hdata
  set stage5 := Uint256.fromLeBytes (c.blake2b 32 FINAL_KEY (row.stage4.toLeBytes.toList
    ++ leBytes nonce ++ s.blockTarget.toLeBytes.toList)) with hstage5
  have hfinal : bytesAt (blake2bKeyedPow72 uninit uninit finalData) 0 32
      = stage5.toLeBytes.toList := by
    rw [bytesAt_blake2bKeyedPow72, bytesAt_finalData hstage4 hrow.nonce_eq, hstage5,
      Uint256.toLeBytes_fromLeBytes]
    exact (hc 32 FINAL_KEY _ (by omega) (by omega) (by decide)).symm
  have hword : ∀ w : Fin 4, load64Le (blake2bKeyedPow72 uninit uninit finalData) (w.val * 8)
      = stage5.toLeU64.get w := by
    intro w
    rw [← load64Le_word hfinal w, Nat.zero_add]
  have h1 : load64Le jobInputs (off + 96) = row.stage1.toLeU64.get 0 := load64Le_word hrow.stage1 0
  have h2 : load64Le jobInputs (off + 128 + 8) = row.stage2.toLeU64.get 1 :=
    load64Le_word hrow.stage2 1
  have h3 : load64Le jobInputs (off + 160 + 16) = row.stage3.toLeU64.get 2 :=
    load64Le_word hrow.stage3 2
  have h4 : load64Le stage4 24 = row.stage4.toLeU64.get 3 := load64Le_word hstage4 3
  -- the words that are compared are those of the proof of work
  have hpow : Uint256.fromLeU64 (mixStages (Vector.ofFn fun w => stage5.toLeU64.get w)
      (row.stage1.toLeU64.get 0) (row.stage2.toLeU64.get 1) (row.stage3.toLeU64.get 2)
      (row.stage4.toLeU64.get 3) nonce) = ({ s with nonce := nonce } : State).calculatePow c := by
    rw [mixStages_eq]
    simp only [get_ofFn]
    rfl
  rw [velkarFinalizeCandidates]
  simp only [← hoff, ← hdigest, ← hdata, hword, h1, h2, h3, h4, hrow.load_nonce, meetsCheck_iff,
    hpow]
  split
  case isTrue => rw [Function.update_idem]
  case isFalse => rfl

end

end Kernel

/-! ### The host -/

/-- The scalar arguments of `velkar_finalize_candidates`. -/
structure FinalizeArgs where
  memoryPerJob : U64
  inputPerJob : U64
  target : Vector U64 4
  check : Vector U64 4

/-- The kernel, launched over a batch of the given size. -/
abbrev FinalizeKernel := ℕ → FinalizeArgs → DeviceBuffers → Buffer U64 → Except Str (Buffer U64)

/-- `finalize_candidates`, and what is in the buffer of the nonces before. -/
def OpenClSearcher.finalizeCandidates (finalizeKernel : FinalizeKernel) (foundNonces : Buffer U64)
    (self : OpenClSearcher) (state : State) (checkTarget : Uint256) : Except Str (List GpuHit) := do
  let foundNonces := writeAt foundNonces 0 self.batchSize fun _ => 0
  let foundNonces ← finalizeKernel self.batchSize
    ⟨BitVec.ofNat 64 memoryPerJobBytes, BitVec.ofNat 64 JOB_INPUT_BYTES,
      state.blockTarget.toLeU64, checkTarget.toLeU64⟩ self.buffers foundNonces
  let found := (List.range self.batchSize).map foundNonces
  pure ((found.filter fun nonce => nonce ≠ 0).map fun nonce => ⟨nonce, ⟨Vector.replicate 4 0⟩⟩)

/-- `run_argon_kernel`. -/
def Driver.fill (driver : Driver) (batchSize : ℕ) (buffers : DeviceBuffers) :
    Except Str DeviceBuffers :=
  driver.argon2KernelOneshotPrecompute batchSize (BitVec.ofNat 32 ARGON_TIME_COST)
    (BitVec.ofNat 32 ARGON_LANES)
    (BitVec.ofNat 32 (ARGON_MEMORY_KIB / (ARGON2_SYNC_POINTS * ARGON_LANES))) buffers

namespace Kernel

/-- The order of the jobs of a launch and their private memory. -/
structure FinalizeSchedule (n : ℕ) where
  jobs : List ℕ
  jobs_perm : jobs.Perm (List.range n)
  uninit : ℕ → Buffer Byte

def finalizeKernel (schedule : (n : ℕ) → FinalizeSchedule n) : FinalizeKernel :=
  fun n args buffers foundNonces =>
    .ok ((schedule n).jobs.foldl (fun foundNonces job =>
      velkarFinalizeCandidates ((schedule n).uninit job) buffers.memory buffers.jobInputs
        args.memoryPerJob args.inputPerJob args.target args.check (BitVec.ofNat 64 job) foundNonces)
      foundNonces)

section

variable {c : Crates} {s : State} {nonceBase : U64} {batchSize : ℕ}

/-- The last block of a job is digested from 1024 bytes before the end of its region. -/
theorem bytesAt_lastBlock (uninit : Buffer Byte) (memory : Buffer U64) {job : ℕ}
    (hjob : job < 2 ^ 32) :
    bytesAt (blake2bHash32PrefixBlockGlobal uninit uninit fun i => memoryBytes memory
        ((BitVec.ofNat 64 job * BitVec.ofNat 64 memoryPerJobBytes).toNat
          + (BitVec.ofNat 64 memoryPerJobBytes).toNat - 1024 + i)) 0 32
      = Blake2b.hash 32 []
          (Argon2.le32 32 ++ Argon2.blockBytes (blockAt memory (8192 * job + 8191))) := by
  have hlast : (BitVec.ofNat 64 job * BitVec.ofNat 64 memoryPerJobBytes).toNat
      + (BitVec.ofNat 64 memoryPerJobBytes).toNat - 1024 = 1024 * (8192 * job + 8191) := by
    rw [region_eq hjob]
    show 1024 * (8192 * job) + 8388608 - 1024 = _
    omega
  rw [bytesAt_blake2bHash32PrefixBlockGlobal, hlast, ← bytesAt_memoryBytes]
  refine congrArg (fun block => Blake2b.hash 32 [] (Argon2.le32 32 ++ block)) ?_
  apply bytesAt_congr
  intro i _
  rw [Nat.zero_add]

/-- The digest of the last block of a job, from its password and its salt. -/
theorem last_block_digest (device : Device) (schedule : (n : ℕ) → Schedule n)
    (hargon : c.Argon2idRight) (hbatch : batchSize ≤ 2 ^ 32) {jobInputs : Buffer Byte}
    (memory uninit : Buffer Byte) {job : ℕ} (hjob : job < batchSize) {nonce : U64}
    (hrow : HoldsRow c s nonce jobInputs (job * JOB_INPUT_BYTES)) :
    bytesAt (blake2bHash32PrefixBlockGlobal uninit uninit fun i =>
        filledMemory device schedule jobInputs memory batchSize
          ((BitVec.ofNat 64 job * BitVec.ofNat 64 memoryPerJobBytes).toNat
            + (BitVec.ofNat 64 memoryPerJobBytes).toNat - 1024 + i)) 0 32
      = (GpuRow.correct c s nonce).stage4.toLeBytes.toList := by
  -- the digest is what an export of the same memory would read
  have hexport := stage4_is_argon2id device.amdMediaOps device.refs device.warps_perm hbatch
    ((schedule batchSize).run 1 2048) (schedule batchSize).regs (schedule batchSize).initUninit
    (schedule batchSize).exportUninit memory jobInputs (fun _ => 0) (fun _ => 0)
    (BitVec.ofNat 64 JOB_INPUT_BYTES) (schedule batchSize).inits_perm
    (schedule batchSize).exports_perm hjob
  simp only at hexport
  rw [exports_right _ _ _ _ _ _ hbatch (schedule batchSize).exports_perm hjob, row_eq (by omega),
    hrow.argon2id hargon] at hexport
  rw [← hexport]
  exact bytesAt_lastBlock uninit _ (by omega)

theorem driver_fill (device : Device) (schedule : (n : ℕ) → Schedule n) (start : DeviceBuffers) :
    (driver device schedule).prepare batchSize s nonceBase start
        >>= (driver device schedule).fill batchSize
      = .ok (let buffers := uploadConstants s start
        let jobInputs := preparedInputs schedule s nonceBase batchSize buffers
        ⟨filledMemory device schedule jobInputs buffers.memory batchSize, buffers.constants,
          jobInputs, buffers.stage4, buffers.nonces⟩) := by
  have hpasses : BitVec.ofNat 32 ARGON_TIME_COST = 1 := rfl
  have hlanes : BitVec.ofNat 32 ARGON_LANES = 1 := rfl
  have hsegment : BitVec.ofNat 32 (ARGON_MEMORY_KIB / (ARGON2_SYNC_POINTS * ARGON_LANES)) = 2048 :=
    rfl
  generalize hbuffers : uploadConstants s start = buffers
  simp only [Driver.prepare, Driver.fill, driver, bind, Except.bind, hbuffers, hpasses, hlanes,
    hsegment, preparedInputs, filledMemory]

/-- The words that the kernels of a batch leave, the jobs in any order. -/
theorem found_right (hf : ∀ A, c.f1600 A = Keccak.keccakF A) (hargon : c.Argon2idRight)
    (hc : c.Blake2bRight) (device : Device) (schedule : (n : ℕ) → Schedule n)
    (hbatch : batchSize ≤ 2 ^ 32) (start : DeviceBuffers) (uninit : ℕ → Buffer Byte)
    (check : Uint256) {jobs : List ℕ} (hjobs : jobs.Perm (List.range batchSize)) {job : ℕ}
    (hjob : job < batchSize) (foundNonces : Buffer U64) :
    let jobInputs := preparedInputs schedule s nonceBase batchSize (uploadConstants s start)
    let memory := filledMemory device schedule jobInputs (uploadConstants s start).memory batchSize
    let nonce := s.applyExtranonce (nonceBase + BitVec.ofNat 64 job)
    jobs.foldl (fun foundNonces job => velkarFinalizeCandidates (uninit job) memory jobInputs
        (BitVec.ofNat 64 memoryPerJobBytes) (BitVec.ofNat 64 JOB_INPUT_BYTES)
        s.blockTarget.toLeU64 check.toLeU64 (BitVec.ofNat 64 job) foundNonces) foundNonces job
      = if ({ s with nonce := nonce } : State).calculatePow c ≤ check then nonce else 0 := by
  intro jobInputs memory nonce
  have hindex : ∀ j < batchSize, (BitVec.ofNat 64 j).toNat = j := by
    intro j hj
    rw [BitVec.toNat_ofNat]
    omega
  have hword : ∀ j < batchSize, ∀ foundNonces, velkarFinalizeCandidates (uninit j) memory jobInputs
      (BitVec.ofNat 64 memoryPerJobBytes) (BitVec.ofNat 64 JOB_INPUT_BYTES) s.blockTarget.toLeU64
      check.toLeU64 (BitVec.ofNat 64 j) foundNonces = Function.update foundNonces j
        (if ({ s with nonce := s.applyExtranonce (nonceBase + BitVec.ofNat 64 j) } :
            State).calculatePow c ≤ check then s.applyExtranonce (nonceBase + BitVec.ofNat 64 j)
          else 0) := by
    intro j hj foundNonces
    have hrow : HoldsRow c s (s.applyExtranonce (nonceBase + BitVec.ofNat 64 j)) jobInputs
        (j * JOB_INPUT_BYTES) :=
      holdsRow (rows_right s start hf (schedule batchSize).prepareUninit
        (uploadConstants s start).jobInputs nonceBase hbatch (schedule batchSize).prepares_perm hj)
    have hdigest := last_block_digest device schedule hargon hbatch
      (uploadConstants s start).memory (uninit j) hj hrow
    rw [velkarFinalizeCandidates_spec hc check (by rwa [row_eq (by omega)]) hdigest, hindex j hj]
  refine Loops.foldl_reach (P := fun foundNonces : Buffer U64 => foundNonces job
      = if ({ s with nonce := nonce } : State).calculatePow c ≤ check then nonce else 0)
    (fun found j hj hfound => ?_) (hjobs.mem_iff.mpr (List.mem_range.mpr hjob)) (fun found => ?_)
    foundNonces
  · rw [hword j (List.mem_range.mp (hjobs.mem_iff.mp hj))]
    by_cases hsame : job = j
    · rw [← hsame, Function.update_self]
    · rw [Function.update_of_ne hsame]
      exact hfound
  · rw [hword job hjob, Function.update_self]

end

end Kernel

/-! ### Both filters -/

/-- Reading the words back drops the hits of nonce zero, and nothing else. -/
theorem found_eq_hits (c : Crates) (s : State) (checkTarget pow : Uint256) (nonces : List U64) :
    ((nonces.map fun nonce =>
        if ({ s with nonce := nonce } : State).calculatePow c ≤ checkTarget then nonce
        else 0).filter fun nonce => nonce ≠ 0).map (fun nonce => (⟨nonce, pow⟩ : GpuHit))
      = ((nonces.filterMap (cpuHit c s checkTarget)).filter fun hit => hit.nonce ≠ 0).map
          fun hit => ⟨hit.nonce, pow⟩ := by
  induction nonces with
  | nil => rfl
  | cons nonce nonces ih =>
    by_cases hpow : ({ s with nonce := nonce } : State).calculatePow c ≤ checkTarget
    · have hhit : cpuHit c s checkTarget nonce
          = some ⟨nonce, ({ s with nonce := nonce } : State).calculatePow c⟩ := if_pos hpow
      rw [List.map_cons, if_pos hpow, List.filterMap_cons, hhit, List.filter_cons,
        List.filter_cons]
      by_cases hzero : nonce = 0
      · rw [if_neg (by simp [hzero]), if_neg (by simp [hzero]), ih]
      · rw [if_pos (decide_eq_true hzero), if_pos (decide_eq_true hzero), List.map_cons,
          List.map_cons, ih]
    · have hhit : cpuHit c s checkTarget nonce = none := if_neg hpow
      rw [List.map_cons, if_neg hpow, List.filterMap_cons, hhit, List.filter_cons,
        if_neg (by simp), ih]

/-- After the launches up to the fill, the filter of the device returns the hits of the host's, in
their order, except those of nonce zero and without their proofs of work: whatever the buffers
held before and however the jobs of each launch were ordered. -/
theorem finalize_candidates_exact (c : Crates) (hf : c.CallsAssembly) (hargon : c.Argon2idRight)
    (hc : c.Blake2bRight) (device : Kernel.Device) (schedule : (n : ℕ) → Kernel.Schedule n)
    (finalizes : (n : ℕ) → Kernel.FinalizeSchedule n) (self : OpenClSearcher)
    (hbatch : self.batchSize ≤ 2 ^ 32) (s : State) (nonceBase : U64) (checkTarget : Uint256)
    (foundNonces : Buffer U64) :
    (do
      let buffers ← (Kernel.driver device schedule).prepare self.batchSize s nonceBase self.buffers
      let buffers ← (Kernel.driver device schedule).fill self.batchSize buffers
      OpenClSearcher.finalizeCandidates (Kernel.finalizeKernel finalizes) foundNonces
        { self with buffers := buffers } s checkTarget)
      = .ok (((search c s nonceBase self.batchSize checkTarget).filter fun hit =>
          hit.nonce ≠ 0).map fun hit => ⟨hit.nonce, ⟨Vector.replicate 4 0⟩⟩) := by
  rw [← bind_assoc, Kernel.driver_fill]
  simp only [bind, Except.bind, OpenClSearcher.finalizeCandidates, Kernel.finalizeKernel]
  refine congrArg Except.ok ?_
  rw [search_eq_filterMap, ← found_eq_hits, batchNonces, List.map_map]
  refine congrArg (fun found : List U64 => (found.filter fun nonce => nonce ≠ 0).map
    fun nonce => (⟨nonce, ⟨Vector.replicate 4 0⟩⟩ : GpuHit)) (List.map_congr_left fun j hj => ?_)
  exact Kernel.found_right hf.f1600_eq hargon hc device schedule hbatch self.buffers
    (finalizes self.batchSize).uninit checkTarget (finalizes self.batchSize).jobs_perm
    (List.mem_range.mp hj) _

def sampleFinalize (n : ℕ) : Kernel.FinalizeSchedule n where
  jobs := (sampleSchedule n).exports
  jobs_perm := (sampleSchedule n).exports_perm
  uninit _ _ := 0

def sampleOpenCl : OpenClSearcher := ⟨2, Nat.two_pos, sampleBuffers, false, false⟩

/-- A batch of two nonces from 1 on, the second job first. -/
theorem finalize_candidates_exact_sample :
    (do
      let buffers ← (Kernel.driver sampleDevice sampleSchedule).prepare 2 State.sampleState 1
        sampleBuffers
      let buffers ← (Kernel.driver sampleDevice sampleSchedule).fill 2 buffers
      OpenClSearcher.finalizeCandidates (Kernel.finalizeKernel sampleFinalize) (fun _ => 7)
        { sampleOpenCl with buffers := buffers } State.sampleState State.samplePow)
      = .ok (((search standardCrates State.sampleState 1 2 State.samplePow).filter fun hit =>
          hit.nonce ≠ 0).map fun hit => ⟨hit.nonce, ⟨Vector.replicate 4 0⟩⟩) := by
  have hassembly : standardCrates.CallsAssembly := callsAssembly_of_keccakF fun _ => rfl
  have hbatch : sampleOpenCl.batchSize ≤ 2 ^ 32 := show 2 ≤ 2 ^ 32 by omega
  exact finalize_candidates_exact standardCrates hassembly standardCrates_argon2id
    standardCrates_blake2b sampleDevice sampleSchedule sampleFinalize sampleOpenCl hbatch
    State.sampleState 1 State.samplePow fun _ => 7
