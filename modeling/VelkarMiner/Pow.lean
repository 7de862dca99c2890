/-
Mining states (`src/pow.rs`).

A `State` is one job: the matrix and the absorbed hash state that belong to its
pre-PoW hash, the two targets, and for a job of the node the block template.
The fields `hasher_eq` and `block_header` say what `fromComponents` and `new`
establish, so that no state breaks it.

* `mem_new` — what `State::new` returns;
* `generateBlockIfPow_eq` — when a state emits a block, and which.
-/
import VelkarMiner.Header
import VelkarMiner.HeavyHash
import VelkarMiner.Target

open Bytes Rust

structure State where
  id : U64
  jobId : Option Str
  matrix : NibbleMatrix
  nonce : U64
  blockTarget : Uint256
  shareTarget : Uint256
  block : Option RpcBlock
  prePowHash : Uint256
  timestamp : U64
  nonceMask : U64
  nonceFixed : U64
  hasher : PowHasher
  hasher_eq : hasher = PowHasher.new prePowHash timestamp
  block_header : ∀ b ∈ block, b.header.isSome

inductive PowMatch where
  | none
  | share
  | block
deriving DecidableEq

/-- The key of the final hash. -/
def FINAL_KEY : List Byte := asciiBytes "ProofOfWorkHash".toList

namespace State

theorem header_of_none : ∀ b ∈ (none : Option RpcBlock), b.header.isSome := by simp

variable (c : Crates) (computeRank : Matrix64 → ℕ)

/-! ### Construction -/

def fromComponents (id : U64) (jobId : Option Str) (prePowHash : Uint256) (timestamp : U64)
    (blockTarget shareTarget : Uint256) (block : Option RpcBlock)
    (hblock : ∀ b ∈ block, b.header.isSome) (nonceMask nonceFixed : U64) : Part State :=
  (Matrix64.generate computeRank prePowHash).map fun matrix =>
    { id, jobId, matrix, nonce := 0, blockTarget, shareTarget, block, prePowHash, timestamp,
      nonceMask, nonceFixed
      hasher := PowHasher.new prePowHash timestamp
      hasher_eq := rfl
      block_header := hblock }

/-- The pre-PoW hash of a header. -/
def headerHash (header : RpcBlockHeader) : Outcome Error Hash := do
  let hasher ← serializeHeader HeaderHasher.new header true
  pure (hasher.finalize c)

def new (id : U64) (block : RpcBlock) : Part (Outcome Error State) :=
  match h : block.header with
  | none => Part.some (.err (.message "Header is missing".toList))
  | some header =>
    let target := u256FromCompactTarget header.bits
    match headerHash c header with
    | .err e => Part.some (.err e)
    | .panic => Part.some .panic
    | .ok prePowHash =>
      (fromComponents computeRank id none prePowHash header.timestamp target target (some block)
        (by simp [h]) (BitVec.allOnes 64) 0).map .ok

def fromStratum (id : U64) (jobId : Str) (prePowHash : Uint256) (timestamp : U64)
    (blockTarget shareTarget : Uint256) (nonceMask nonceFixed : U64) : Part State :=
  fromComponents computeRank id (some jobId) prePowHash timestamp blockTarget shareTarget none
    (by simp) nonceMask nonceFixed

def applyExtranonce (self : State) (nonce : U64) : U64 :=
  (nonce &&& self.nonceMask) ||| self.nonceFixed

/-- The constants of a job as the device reads them. -/
def gpuHashHeader (self : State) : Vector Byte 72 :=
  Vector.ofFn fun i =>
    if h : i.val < 32 then self.prePowHash.toLeBytes[i.val]
    else if i.val < 40 then leByte self.timestamp (i.val - 32)
    else 0

/-! ### The proof of work -/

def stage1ForNonce (self : State) (nonce : U64) : Hash := self.hasher.finalizeWithNonce c nonce
def stage2ForStage1 (self : State) (stage1 : Hash) : Hash := self.matrix.val.heavyHash c stage1
def stage3ForStage2 (stage2 : Hash) : Hash := HeavyHasher.hash c stage2

/-- The body of `calculate_pow`, over the fields it reads. -/
def powOf (hasher : PowHasher) (matrix : Matrix64) (nonce : U64) (blockTarget : Uint256) :
    Uint256 :=
  let stage1 := hasher.finalizeWithNonce c nonce
  let stage2 := matrix.heavyHash c stage1
  let stage3 := HeavyHasher.hash c stage2
  let stage4 := memoryHardHash c stage3 stage1 nonce blockTarget
  let stage5 := Uint256.fromLeBytes (c.blake2b 32 FINAL_KEY (stage4.toLeBytes.toList
    ++ leBytes nonce ++ blockTarget.toLeBytes.toList))
  let words := stage5.toLeU64
  Uint256.fromLeU64 #v[
    words.get 0 ^^^ (stage1.toLeU64.get 0).rotateLeft 17,
    words.get 1 ^^^ (stage2.toLeU64.get 1).rotateRight 11,
    words.get 2 ^^^ (stage3.toLeU64.get 2).rotateLeft 7,
    words.get 3 ^^^ (stage4.toLeU64.get 3).rotateLeft 13 ^^^ nonce.rotateLeft 13]

def calculatePow (self : State) : Uint256 :=
  powOf c self.hasher self.matrix.val self.nonce self.blockTarget

def cpuStage4FromParts (self : State) (stage1 stage3 : Hash) (nonce : U64) : Hash :=
  memoryHardHash c stage3 stage1 nonce self.blockTarget

/-- The last two stages, from what a device has computed of the others. -/
def calculatePowFromParts (self : State) (stage1 stage2 stage3 : Hash) (nonce : U64) : Uint256 :=
  let stage4 := memoryHardHash c stage3 stage1 nonce self.blockTarget
  let stage5 := Uint256.fromLeBytes (c.blake2b 32 FINAL_KEY (stage4.toLeBytes.toList
    ++ leBytes nonce ++ self.blockTarget.toLeBytes.toList))
  let words := stage5.toLeU64
  Uint256.fromLeU64 #v[
    words.get 0 ^^^ (stage1.toLeU64.get 0).rotateLeft 17,
    words.get 1 ^^^ (stage2.toLeU64.get 1).rotateRight 11,
    words.get 2 ^^^ (stage3.toLeU64.get 2).rotateLeft 7,
    words.get 3 ^^^ (stage4.toLeU64.get 3).rotateLeft 13 ^^^ nonce.rotateLeft 13]

/-- The last stage, from what a device has computed of the others. -/
def calculatePowFromGpuStage4 (self : State) (stage1 stage2 stage3 stage4 : Hash) (nonce : U64) :
    Uint256 :=
  let stage5 := Uint256.fromLeBytes (c.blake2b 32 FINAL_KEY (stage4.toLeBytes.toList
    ++ leBytes nonce ++ self.blockTarget.toLeBytes.toList))
  let words := stage5.toLeU64
  Uint256.fromLeU64 #v[
    words.get 0 ^^^ (stage1.toLeU64.get 0).rotateLeft 17,
    words.get 1 ^^^ (stage2.toLeU64.get 1).rotateRight 11,
    words.get 2 ^^^ (stage3.toLeU64.get 2).rotateLeft 7,
    words.get 3 ^^^ (stage4.toLeU64.get 3).rotateLeft 13 ^^^ nonce.rotateLeft 13]

def powMatch (self : State) : PowMatch :=
  let pow := self.calculatePow c
  if pow ≤ self.blockTarget then .block
  else if pow ≤ self.shareTarget then .share
  else .none

def generateBlockIfPow (self : State) : Outcome Error (Option RpcBlock) :=
  if self.powMatch c = .block then do
    let block ← Outcome.expect self.block
    let header ← Outcome.expect block.header
    pure (some { block with header := some { header with nonce := self.nonce } })
  else pure none

variable {c computeRank}

/-! ### What a state has been built from -/

/-- The state `State::new` makes of a block, before its nonce is set. -/
structure BuiltFrom (s : State) (c : Crates) (computeRank : Matrix64 → ℕ) (id : U64)
    (block : RpcBlock) (header : RpcBlockHeader) : Prop where
  header_eq : block.header = some header
  hash_eq : headerHash c header = .ok s.prePowHash
  matrix_mem : s.matrix ∈ Matrix64.generate computeRank s.prePowHash
  id_eq : s.id = id
  jobId_eq : s.jobId = none
  nonce_eq : s.nonce = 0
  timestamp_eq : s.timestamp = header.timestamp
  blockTarget_eq : s.blockTarget = u256FromCompactTarget header.bits
  shareTarget_eq : s.shareTarget = u256FromCompactTarget header.bits
  block_eq : s.block = some block
  nonceMask_eq : s.nonceMask = BitVec.allOnes 64
  nonceFixed_eq : s.nonceFixed = 0

theorem mem_fromComponents {id : U64} {jobId : Option Str} {prePowHash : Uint256} {timestamp : U64}
    {blockTarget shareTarget : Uint256} {block : Option RpcBlock}
    {hblock : ∀ b ∈ block, b.header.isSome} {nonceMask nonceFixed : U64} {s : State} :
    s ∈ fromComponents computeRank id jobId prePowHash timestamp blockTarget shareTarget block
        hblock nonceMask nonceFixed
      ↔ ∃ matrix ∈ Matrix64.generate computeRank prePowHash,
          s = { id, jobId, matrix, nonce := 0, blockTarget, shareTarget, block, prePowHash,
                timestamp, nonceMask, nonceFixed, hasher := PowHasher.new prePowHash timestamp,
                hasher_eq := rfl, block_header := hblock } := by
  rw [fromComponents, Part.mem_map_iff]
  constructor
  · rintro ⟨matrix, hm, rfl⟩
    exact ⟨matrix, hm, rfl⟩
  · rintro ⟨matrix, hm, rfl⟩
    exact ⟨matrix, hm, rfl⟩

@[ext] theorem ext_fields {s t : State} (hid : s.id = t.id) (hjob : s.jobId = t.jobId)
    (hmatrix : s.matrix = t.matrix) (hnonce : s.nonce = t.nonce)
    (hblock : s.blockTarget = t.blockTarget) (hshare : s.shareTarget = t.shareTarget)
    (htemplate : s.block = t.block) (hhash : s.prePowHash = t.prePowHash)
    (htime : s.timestamp = t.timestamp) (hmask : s.nonceMask = t.nonceMask)
    (hfixed : s.nonceFixed = t.nonceFixed) : s = t := by
  have hs := s.hasher_eq
  have ht := t.hasher_eq
  cases s
  cases t
  simp_all

theorem mem_new {id : U64} {block : RpcBlock} {s : State} :
    Outcome.ok s ∈ new c computeRank id block
      ↔ ∃ header, BuiltFrom s c computeRank id block header := by
  unfold new
  constructor
  · intro h
    split at h
    case h_1 => simp at h
    case h_2 header hheader =>
      simp only at h
      split at h
      case h_1 => simp at h
      case h_2 => simp at h
      case h_3 prePowHash hhash =>
        obtain ⟨t, ht, hts⟩ := (Part.mem_map_iff _).mp h
        obtain ⟨matrix, hm, rfl⟩ := mem_fromComponents.mp ht
        obtain rfl : _ = s := Outcome.ok.inj hts
        exact ⟨header, hheader, hhash, hm, rfl, rfl, rfl, rfl, rfl, rfl, rfl, rfl, rfl⟩
  · rintro ⟨header, hs⟩
    split
    case h_1 hnone => simp [hs.header_eq] at hnone
    case h_2 header' hheader =>
      obtain rfl : header = header' := by
        have := hs.header_eq.symm.trans hheader
        simpa using this
      simp only [hs.hash_eq]
      refine (Part.mem_map_iff _).mpr ⟨s, mem_fromComponents.mpr ⟨s.matrix, hs.matrix_mem, ?_⟩, rfl⟩
      exact ext_fields hs.id_eq hs.jobId_eq rfl hs.nonce_eq hs.blockTarget_eq hs.shareTarget_eq
        hs.block_eq rfl hs.timestamp_eq hs.nonceMask_eq hs.nonceFixed_eq

theorem headerHash_congr (header : RpcBlockHeader) (nonce : U64) :
    headerHash c { header with nonce := nonce } = headerHash c header := by
  rw [headerHash, headerHash]
  exact congrArg (· >>= _) (serializeHeader_congr HeaderHasher.new header nonce header.timestamp)

/-- With its nonce set, a state of the node's template emits exactly the template with
that nonce, and only when the proof of work meets the target. -/
theorem generateBlockIfPow_eq {s : State} {id : U64} {block : RpcBlock} {header : RpcBlockHeader}
    (hs : BuiltFrom s c computeRank id block header) (nonce : U64) :
    ({ s with nonce := nonce } : State).generateBlockIfPow c
      = .ok (if ({ s with nonce := nonce } : State).calculatePow c
            ≤ u256FromCompactTarget header.bits
          then some { block with header := some { header with nonce := nonce } } else none) := by
  have hmatch : ({ s with nonce := nonce } : State).powMatch c = .block
      ↔ ({ s with nonce := nonce } : State).calculatePow c ≤ u256FromCompactTarget header.bits := by
    simp only [powMatch, hs.blockTarget_eq, hs.shareTarget_eq]
    split
    · simp [*]
    · simp [*]
  rw [generateBlockIfPow]
  by_cases hpow : ({ s with nonce := nonce } : State).calculatePow c
      ≤ u256FromCompactTarget header.bits
  · rw [if_pos (hmatch.mpr hpow), if_pos hpow]
    simp [hs.block_eq, hs.header_eq]
  · rw [if_neg fun h => hpow (hmatch.mp h), if_neg hpow]
    rfl

/-- The proof of work depends on the template only through what the header hash,
the timestamp and the target say. -/
theorem calculatePow_congr {s t : State} (hmatrix : s.matrix = t.matrix)
    (hnonce : s.nonce = t.nonce)
    (htarget : s.blockTarget = t.blockTarget) (hhash : s.prePowHash = t.prePowHash)
    (htime : s.timestamp = t.timestamp) : s.calculatePow c = t.calculatePow c := by
  rw [calculatePow, calculatePow, s.hasher_eq, t.hasher_eq, hmatrix, hnonce, htarget, hhash, htime]

/-! ### A sample job -/

/-- A header with little in it. -/
def sampleHeader : RpcBlockHeader where
  version := 1
  parents := []
  hashMerkleRoot := List.replicate 64 '0'
  acceptedIdMerkleRoot := List.replicate 64 '0'
  utxoCommitment := List.replicate 64 '0'
  timestamp := 7
  bits := 0x207fffff
  nonce := 0
  daaScore := 0
  blueWork := []
  pruningPoint := List.replicate 64 '0'
  blueScore := 0

def sampleBlock (nonce : U64) : RpcBlock where
  header := some { sampleHeader with nonce := nonce }
  transactions := []
  verboseData := none

/-- The outputs of Keccak-f[1600], BLAKE2b and Argon2id on the inputs that the header hash
and the nonce 2 of the sample lead to. -/
def sampleCrates : Crates where
  f1600 := fun state =>
    if state.get 24 = PowHasher.INITIAL_STATE[24] then
      #v[2029088058353139422, 11318725313657125954, 7039444627989424784, 3198994888510181162,
      10697657924557319695, 3218946090848998449, 7498186427808202530, 15762281737883480320,
      17325708058820600734, 8671203840656795743, 16447618981316534200, 4421140865371552141,
      3024132446114237772, 9384820420629766269, 10184651616792328453, 4910643916766913902,
      4997282217307967968, 13027545228617252959, 8438146907050360746, 1515497429049679352,
      2320318181537582540, 279125579271512090, 17529502836481694786, 12414717786211394164,
      1171175838238725224]
    else if state.get 0 = 16509389427369793596 then
      #v[9591496071237310889, 14883956077901379031, 5496902438838920058, 11541660166708711877,
      8815655166623890290, 2311061572121696979, 12455657814141730339, 16322364800844060573,
      10557251655333481498, 4048772686413058474, 17570129227346444450, 8165914268061338742,
      13234697805454935966, 8515844804838627199, 12537382247106372798, 6466421580855526144,
      10666804849511202865, 13242280382605693320, 5057402255556646667, 17721856236208453807,
      17126227254698071797, 6826836274223556684, 12038297886401392710, 378602805631328395,
      10865825312812030030]
    else
      #v[16125822791643815221, 4707538281291554698, 7502335957222616949, 15241464947246833234,
      15645876280518591764, 18069407304716437522, 372698343473125272, 2871546995423066210,
      18275129444661374075, 15778000795431613945, 6255892379590026235, 5235319850778542370,
      17567992099261467934, 6638037993672953489, 16543210640690833794, 9485348468834845481,
      10500036225941174546, 2470025622527977470, 14393977685525316970, 15251889426037689415,
      6010544472743989377, 19055262859121515, 4095058608130116270, 17258854401923362395,
      11840582593242635566]
  blake2b := fun n key _ =>
    if h : n = 32 then
      if key = FINAL_KEY then
        h ▸ #v[190, 103, 132, 102, 228, 138, 121, 40, 36, 198, 89, 166, 162, 111, 155, 192, 191,
          229, 97, 36,
      234, 214, 191, 239, 56, 110, 91, 20, 126, 186, 203, 142]
      else
        h ▸ #v[253, 228, 139, 213, 8, 95, 38, 202, 213, 81, 72, 184, 218, 236, 193, 245, 117, 33,
          32, 136, 188,
      214, 92, 234, 162, 103, 124, 152, 88, 102, 9, 165]
    else Vector.replicate n 0
  argon2id := fun _ _ _ _ _ =>
    #v[63, 184, 104, 9, 91, 89, 211, 103, 182, 35, 149, 5, 80, 11, 60, 125, 69, 158, 233, 47, 148,
      102,
    134, 229, 0, 23, 187, 33, 119, 73, 78, 197]

def sampleHash : Hash :=
  ⟨#v[14566434536323540221, 17708695633936273877, 16887608807958520181, 11892148821749950370]⟩

theorem headerHash_sample (nonce : U64) :
    headerHash sampleCrates { sampleHeader with nonce := nonce } = .ok sampleHash := by
  rw [headerHash_congr]
  decide +kernel

def samplePow : Uint256 :=
  ⟨#v[11661185733535227887, 3590289415476878295, 14684554610976250009, 5180650615977227921]⟩

theorem powOf_sample :
    powOf sampleCrates (PowHasher.new sampleHash 7) (Matrix64.draw sampleHash 0) 2
      (u256FromCompactTarget 0x207fffff) = samplePow := by
  decide +kernel

/-- The matrix of the sample is the first draw; its rank is full. -/
def sampleMatrix : NibbleMatrix := ⟨Matrix64.draw sampleHash 0, Matrix64.draw_nibbles sampleHash 0⟩

theorem sampleMatrix_mem : sampleMatrix ∈ Matrix64.generate (fun _ => 64) sampleHash :=
  Matrix64.mem_generate.mpr ⟨0, rfl, fun k hk => absurd hk (Nat.not_lt_zero k), rfl⟩

/-- The state of the sample template. -/
def sampleState : State where
  id := 0
  jobId := none
  matrix := sampleMatrix
  nonce := 0
  blockTarget := u256FromCompactTarget 0x207fffff
  shareTarget := u256FromCompactTarget 0x207fffff
  block := some (sampleBlock 0)
  prePowHash := sampleHash
  timestamp := 7
  nonceMask := BitVec.allOnes 64
  nonceFixed := 0
  hasher := PowHasher.new sampleHash 7
  hasher_eq := rfl
  block_header := by simp [sampleBlock]

/-- The sample as a pool's job: its block target is the one of the template. -/
def sampleJob (jobId : Str) (shareTarget : Uint256) : State :=
  { sampleState with jobId := some jobId, shareTarget := shareTarget, block := none
                     block_header := by simp }

theorem sampleJob_mem (jobId : Str) (shareTarget : Uint256) :
    sampleJob jobId shareTarget ∈ fromStratum (fun _ => 64) 0 jobId sampleHash 7
      (u256FromCompactTarget 0x207fffff) shareTarget (BitVec.allOnes 64) 0 :=
  mem_fromComponents.mpr ⟨sampleMatrix, sampleMatrix_mem, rfl⟩

theorem calculatePow_sampleJob (jobId : Str) (shareTarget : Uint256) :
    ({ sampleJob jobId shareTarget with nonce := 2 } : State).calculatePow sampleCrates
      = samplePow :=
  powOf_sample

theorem sampleState_builtFrom :
    BuiltFrom sampleState sampleCrates (fun _ => 64) 0 (sampleBlock 0) sampleHeader where
  header_eq := rfl
  hash_eq := headerHash_sample 0
  matrix_mem := sampleMatrix_mem
  id_eq := rfl
  jobId_eq := rfl
  nonce_eq := rfl
  timestamp_eq := rfl
  blockTarget_eq := rfl
  shareTarget_eq := rfl
  block_eq := rfl
  nonceMask_eq := rfl
  nonceFixed_eq := rfl

theorem generateBlockIfPow_sample :
    ({ sampleState with nonce := 2 } : State).generateBlockIfPow sampleCrates
      = .ok (some (sampleBlock 2)) := by
  have hpow : ({ sampleState with nonce := 2 } : State).calculatePow sampleCrates = samplePow :=
    powOf_sample
  rw [generateBlockIfPow_eq sampleState_builtFrom, hpow, if_pos (by decide +kernel)]
  rfl

/-! ### A block verifies from its own header -/

/-- A block emitted for a template differs from it in the nonce alone, and a
verifier that builds its state from the emitted header arrives at the same job
and finds the same block there. -/
theorem generated_block_verifies (c : Crates) (computeRank : Matrix64 → ℕ) (id : U64)
    (block block' : RpcBlock) (s : State) (nonce : U64)
    (hs : Outcome.ok s ∈ new c computeRank id block)
    (hfound : ({ s with nonce := nonce } : State).generateBlockIfPow c = .ok (some block')) :
    (∀ header nonce' timestamp', serializeHeader HeaderHasher.new
        { header with nonce := nonce', timestamp := timestamp' } true
          = serializeHeader HeaderHasher.new header true)
      ∧ ∃ header, block.header = some header
        ∧ block' = { block with header := some { header with nonce := nonce } }
        ∧ ∀ id', ∃ s', Outcome.ok s' ∈ new c computeRank id' block'
          ∧ s'.prePowHash = s.prePowHash ∧ s'.timestamp = s.timestamp
          ∧ s'.blockTarget = s.blockTarget ∧ s'.shareTarget = s.shareTarget
          ∧ s'.matrix = s.matrix
          ∧ ({ s' with nonce := nonce } : State).generateBlockIfPow c = .ok (some block')
          ∧ ({ s' with nonce := nonce } : State).calculatePow c
              ≤ u256FromCompactTarget header.bits := by
  obtain ⟨header, hb⟩ := mem_new.mp hs
  refine ⟨fun header nonce' timestamp' => serializeHeader_congr _ header nonce' timestamp',
    header, hb.header_eq, ?_⟩
  rw [generateBlockIfPow_eq hb] at hfound
  split at hfound
  case isFalse => simp at hfound
  case isTrue hpow =>
    obtain rfl : _ = block' := by simpa using hfound
    refine ⟨rfl, fun id' => ?_⟩
    -- the nonce is not part of the prehash, so the new block builds the same state
    let s' : State :=
      { s with
        id := id'
        block := some { block with header := some { header with nonce := nonce } }
        block_header := by simp }
    have hb' :
        BuiltFrom s' c computeRank id' { block with header := some { header with nonce := nonce } }
        { header with nonce := nonce } :=
      { hb with
        header_eq := rfl
        hash_eq := (headerHash_congr header nonce).trans hb.hash_eq
        id_eq := rfl
        block_eq := rfl }
    have hpow' : ({ s' with nonce := nonce } : State).calculatePow c
        ≤ u256FromCompactTarget header.bits := by
      have : ({ s' with nonce := nonce } : State).calculatePow c
          = ({ s with nonce := nonce } : State).calculatePow c :=
        calculatePow_congr rfl rfl rfl rfl rfl
      rwa [this]
    refine ⟨s', mem_new.mpr ⟨_, hb'⟩, rfl, rfl, rfl, rfl, rfl, ?_, hpow'⟩
    rw [generateBlockIfPow_eq hb', if_pos hpow']

theorem sample_block_verifies :
    ∃ s', Outcome.ok s' ∈ new sampleCrates (fun _ => 64) 1 (sampleBlock 2)
      ∧ ({ s' with nonce := 2 } : State).generateBlockIfPow sampleCrates
          = .ok (some (sampleBlock 2)) := by
  obtain ⟨-, header, -, -, hverify⟩ := generated_block_verifies sampleCrates (fun _ => 64) 0
    (sampleBlock 0) (sampleBlock 2) sampleState 2 (mem_new.mpr ⟨_, sampleState_builtFrom⟩)
    generateBlockIfPow_sample
  obtain ⟨s', hs', -, -, -, -, -, hfound, -⟩ := hverify 1
  exact ⟨s', hs', hfound⟩

end State
