/-
The first two blocks of a job, on the device and on the host.

`velkar_init_first_blocks` of `src/argon2_kernel.cl` writes them into the memory of
a job; `fill_first_blocks_cpu` of `src/gpu.rs` is what the host compares them with.
Both are H' of RFC 9106 at 1024 bytes:

* `digestLongCpu_eq` — the host's digest, for every length;
* `bytesAt_digestLong1024Global` — the device's, with its loop unrolled link by link;
* `first_blocks_agree` — the blocks themselves.
-/
import VelkarMiner.KernelBlake2b
import VelkarMiner.Searchers

open Bytes Rust

/-! ### The host -/

/-- `dst[a..b].copy_from_slice(src)`. -/
def copyFromSlice {ε : Type} (dst : List Byte) (a b : ℕ) (src : List Byte) :
    Outcome ε (List Byte) :=
  if a ≤ b ∧ b ≤ dst.length ∧ src.length = b - a then .ok (dst.take a ++ src ++ dst.drop b)
  else .panic

/-- `Params::new().hash_length(n).to_state().update(data).finalize()`. -/
def hashLength (c : Crates) (n : ℕ) (data : List Byte) : Outcome Error (List Byte) :=
  if 1 ≤ n ∧ n ≤ 64 then .ok (c.blake2b n [] data).toList else .panic

/-- The loop of `digest_long_cpu`, over an output of `len` bytes. -/
def digestLongLoop (c : Crates) (len : ℕ) (out buffer : List Byte) (produced : ℕ) :
    Outcome Error (List Byte × List Byte × ℕ) :=
  if 64 < len - produced then do
    let buffer ← hashLength c 64 buffer
    let head ← sliceOf buffer 0 32
    let out ← copyFromSlice out produced (produced + 32) head
    digestLongLoop c len out buffer (produced + 32)
  else pure (out, buffer, produced)
termination_by len - produced

def digestLongCpu (c : Crates) (out input : List Byte) : Outcome Error (List Byte) :=
  let data := leBytes (BitVec.ofNat 32 out.length) ++ input
  if out.length ≤ 64 then do
    let digest ← hashLength c out.length data
    copyFromSlice out 0 out.length digest
  else do
    let buffer ← hashLength c 64 data
    let head ← sliceOf buffer 0 32
    let written ← copyFromSlice out 0 32 head
    let (written, buffer, produced) ← digestLongLoop c out.length written buffer 32
    let digest ← hashLength c (out.length - produced) buffer
    copyFromSlice written produced out.length digest

/-- The 64 bytes that `initial_hash_cpu` writes. -/
def initialHashCpu (c : Crates) (password salt : List Byte) : Outcome Error (List Byte) :=
  hashLength c 64
    (leBytes (BitVec.ofNat 32 ARGON_LANES) ++ leBytes 32#32
      ++ leBytes (BitVec.ofNat 32 ARGON_MEMORY_KIB) ++ leBytes (BitVec.ofNat 32 ARGON_TIME_COST)
      ++ leBytes 0x13#32 ++ leBytes 2#32
      ++ leBytes (BitVec.ofNat 32 password.length) ++ password
      ++ leBytes (BitVec.ofNat 32 salt.length) ++ salt ++ leBytes 0#32 ++ leBytes 0#32)

def fillFirstBlocksCpu (c : Crates) (memory password salt : List Byte) :
    Outcome Error (List Byte) := do
  let hash ← initialHashCpu c password salt
  let first ← sliceOf memory 0 ARGON2_BLOCK_BYTES
  let first ← digestLongCpu c first (hash ++ leBytes 0#32 ++ leBytes 0#32)
  let memory ← copyFromSlice memory 0 ARGON2_BLOCK_BYTES first
  let second ← sliceOf memory ARGON2_BLOCK_BYTES (2 * ARGON2_BLOCK_BYTES)
  let second ← digestLongCpu c second (hash ++ leBytes 1#32 ++ leBytes 0#32)
  copyFromSlice memory ARGON2_BLOCK_BYTES (2 * ARGON2_BLOCK_BYTES) second

/-- `blake2b_simd` is BLAKE2b, for the digest and key lengths it accepts. -/
def Crates.Blake2bRight (c : Crates) : Prop :=
  ∀ (n : ℕ) (key data : List Byte), 1 ≤ n → n ≤ 64 → key.length ≤ 64 →
    (c.blake2b n key data).toList = Blake2b.hash n key data

section

variable {c : Crates}

theorem hashLength_eq (hc : c.Blake2bRight) {n : ℕ} (h₁ : 1 ≤ n) (h₂ : n ≤ 64)
    (data : List Byte) : hashLength c n data = .ok (Blake2b.hash n [] data) := by
  rw [hashLength, if_pos ⟨h₁, h₂⟩, hc n [] data h₁ h₂ (Nat.zero_le _)]

theorem copyFromSlice_eq {ε : Type} {dst src : List Byte} {a b : ℕ} (hab : a ≤ b)
    (hb : b ≤ dst.length) (hsrc : src.length = b - a) :
    (copyFromSlice dst a b src : Outcome ε (List Byte))
      = .ok (dst.take a ++ src ++ dst.drop b) :=
  if_pos ⟨hab, hb, hsrc⟩

theorem sliceOf_zero {ε : Type} {v : List Byte} {b : ℕ} (hb : b ≤ v.length) :
    (sliceOf v 0 b : Outcome ε (List Byte)) = .ok (v.take b) := by
  rw [sliceOf, if_pos ⟨Nat.zero_le b, hb⟩, List.drop_zero, Nat.sub_zero]

/-- One link of the chain after each turn: what has been written before stays, and the
rest of the output is determined by the buffer. -/
theorem digestLongLoop_spec (hc : c.Blake2bRight) {len r : ℕ} (hr : r = (len + 31) / 32 - 2)
    (m : ℕ) : ∀ (j : ℕ) (out buffer : List Byte), j + m = r → out.length = len →
    ∃ out' buffer', digestLongLoop c len out buffer (32 * j) = .ok (out', buffer', 32 * r)
      ∧ out'.length = len
      ∧ out'.take (32 * r) ++ Blake2b.hash (len - 32 * r) [] buffer'
        = out.take (32 * j) ++ Argon2.hPrimeChain m buffer (len - 32 * r) := by
  -- `m` counts the turns that remain; `j` half digests are already in `out`
  induction m with
  | zero =>
    intro j out buffer hj hout
    obtain rfl : j = r := hj
    refine ⟨out, buffer, ?_, hout, rfl⟩
    rw [digestLongLoop, if_neg (by omega)]
    rfl
  | succ m ih =>
    intro j out buffer hj hout
    have hmore : 64 < len - 32 * j := by omega
    have hhash : (Blake2b.hash 64 [] buffer).length = 64 := Blake2b.length_hash (by omega) [] buffer
    have hhead : ((Blake2b.hash 64 [] buffer).take 32).length = 32 := by
      rw [List.length_take, hhash]
      rfl
    set out₁ := out.take (32 * j) ++ (Blake2b.hash 64 [] buffer).take 32
      ++ out.drop (32 * j + 32) with hout₁
    have hlen₁ : out₁.length = len := by
      simp only [hout₁, List.length_append, hhead, List.length_take, List.length_drop, hout]
      omega
    obtain ⟨out', buffer', hloop, hlen', hbytes⟩ :=
      ih (j + 1) out₁ (Blake2b.hash 64 [] buffer) (by omega) hlen₁
    refine ⟨out', buffer', ?_, hlen', ?_⟩
    · rw [digestLongLoop, if_pos hmore, hashLength_eq hc (by omega) (by omega), Outcome.ok_bind,
        sliceOf_zero (by omega), Outcome.ok_bind,
        copyFromSlice_eq (by omega) (by omega) (by omega), Outcome.ok_bind, ← hout₁]
      exact hloop
    · have htake : out₁.take (32 * (j + 1))
          = out.take (32 * j) ++ (Blake2b.hash 64 [] buffer).take 32 := by
        apply List.take_left'
        rw [List.length_append, hhead, List.length_take, hout]
        omega
      rw [hbytes, htake, List.append_assoc]
      rfl

/-- The host's digest is H', whatever the length of the output. -/
theorem digestLongCpu_eq (hc : c.Blake2bRight) {out : List Byte} (hout : 1 ≤ out.length)
    (input : List Byte) :
    digestLongCpu c out input = .ok (Argon2.hPrime out.length input) := by
  have hdata : leBytes (BitVec.ofNat 32 out.length) ++ input
      = Argon2.le32 out.length ++ input := rfl
  rw [digestLongCpu, Argon2.hPrime, hdata]
  by_cases h64 : out.length ≤ 64
  · have hhash := Blake2b.length_hash h64 [] (Argon2.le32 out.length ++ input)
    rw [if_pos h64, if_pos h64, hashLength_eq hc hout h64, Outcome.ok_bind,
      copyFromSlice_eq (Nat.zero_le _) (Nat.le_refl _) hhash, List.drop_length, List.append_nil]
    rfl
  · set V := Blake2b.hash 64 [] (Argon2.le32 out.length ++ input) with hV
    set r := (out.length + 31) / 32 - 2 with hr
    have hlenV : V.length = 64 := Blake2b.length_hash (by omega) _ _
    have hhead : (V.take 32).length = 32 := by
      rw [List.length_take, hlenV]
      rfl
    set out₁ := out.take 0 ++ V.take 32 ++ out.drop 32 with hout₁
    have hlen₁ : out₁.length = out.length := by
      simp only [hout₁, List.length_append, hhead, List.length_take, List.length_drop]
      omega
    -- the loop starts after the first half of V₁ and leaves the last digest
    obtain ⟨out', buffer', hloop, hlen', hbytes⟩ :=
      digestLongLoop_spec hc hr (r - 1) 1 out₁ V (by omega) hlen₁
    have hlast : (Blake2b.hash (out.length - 32 * r) [] buffer').length = out.length - 32 * r :=
      Blake2b.length_hash (by omega) _ _
    have hfirst : out₁.take (32 * 1) = V.take 32 := by
      rw [hout₁, List.take_zero, List.nil_append]
      exact List.take_left' hhead
    have hchain : Argon2.hPrimeChain r (Argon2.le32 out.length ++ input) (out.length - 32 * r)
        = V.take 32 ++ Argon2.hPrimeChain (r - 1) V (out.length - 32 * r) := by
      obtain ⟨k, hk⟩ : ∃ k, r = k + 1 := ⟨r - 1, by omega⟩
      rw [hk, Nat.add_sub_cancel]
      rfl
    have hend : (hashLength c (out.length - 32 * r) buffer' >>= fun digest =>
        copyFromSlice out' (32 * r) out.length digest)
        = .ok (Argon2.hPrimeChain r (Argon2.le32 out.length ++ input) (out.length - 32 * r)) := by
      rw [hashLength_eq hc (by omega) (by omega), Outcome.ok_bind,
        copyFromSlice_eq (by omega) (by omega) hlast, hbytes, hfirst,
        List.drop_eq_nil_of_le (by omega), List.append_nil, hchain]
    rw [if_neg h64, if_neg h64, hashLength_eq hc (by omega) (by omega), Outcome.ok_bind, ← hV,
      sliceOf_zero (by omega), Outcome.ok_bind,
      copyFromSlice_eq (by omega) (by omega) (by rw [hhead]), Outcome.ok_bind, ← hout₁, hloop]
    exact hend

theorem length_hPrimeChain {last : ℕ} (hl : last ≤ 64) (n : ℕ) (V : List Byte) :
    (Argon2.hPrimeChain n V last).length = 32 * n + last := by
  induction n generalizing V with
  | zero => rw [Argon2.hPrimeChain, Blake2b.length_hash hl, Nat.mul_zero, Nat.zero_add]
  | succ n ih =>
    rw [Argon2.hPrimeChain]
    simp only [List.length_append, List.length_take, Blake2b.length_hash (Nat.le_refl 64), ih]
    omega

/-- `H'` at the size of a block: a chain of 30 links and a last one of 64 bytes. -/
theorem hPrime_1024 (A : List Byte) :
    Argon2.hPrime 1024 A = Argon2.hPrimeChain 30 (Argon2.le32 1024 ++ A) 64 := rfl

theorem length_hPrime_1024 (A : List Byte) : (Argon2.hPrime 1024 A).length = 1024 := by
  rw [hPrime_1024, length_hPrimeChain (Nat.le_refl 64)]

/-- The parameters of the miner. -/
def minerParams : Argon2.Params := ⟨ARGON_LANES, ARGON_TIME_COST, 2048⟩

/-- The pre-hash of the miner's parameters, without secret and data. -/
def minerPreHash (password salt : List Byte) : List Byte :=
  Argon2.preHash minerParams 32 ARGON_MEMORY_KIB password salt [] []

/-- The bytes of the first two blocks. -/
def firstBlocks (password salt : List Byte) : List Byte :=
  Argon2.hPrime 1024 (minerPreHash password salt ++ Argon2.le32 0 ++ Argon2.le32 0)
    ++ Argon2.hPrime 1024 (minerPreHash password salt ++ Argon2.le32 1 ++ Argon2.le32 0)

theorem le32_eq (n : ℕ) : Argon2.le32 n = leBytes (BitVec.ofNat 32 n) := rfl

theorem initialHashCpu_eq (hc : c.Blake2bRight) (password salt : List Byte) :
    initialHashCpu c password salt = .ok (minerPreHash password salt) := by
  rw [initialHashCpu, hashLength_eq hc (by omega) (by omega), minerPreHash, Argon2.preHash]
  simp only [le32_eq, minerParams, List.length_nil, List.append_nil]

/-- Two blocks of memory are overwritten whole. -/
theorem fillFirstBlocksCpu_eq (hc : c.Blake2bRight) {memory : List Byte}
    (hmemory : memory.length = 2048) (password salt : List Byte) :
    fillFirstBlocksCpu c memory password salt = .ok (firstBlocks password salt) := by
  set A := minerPreHash password salt ++ leBytes 0#32 ++ leBytes 0#32 with hA
  set B := minerPreHash password salt ++ leBytes 1#32 ++ leBytes 0#32 with hB
  -- what is in the slice beforehand does not matter, only its length
  have hfirst : ∀ v : List Byte, v.length = 1024 → digestLongCpu c v A
      = .ok (Argon2.hPrime 1024 A) := by
    intro v hv
    rw [digestLongCpu_eq hc (by omega), hv]
  have hsecond : ∀ v : List Byte, v.length = 1024 → digestLongCpu c v B
      = .ok (Argon2.hPrime 1024 B) := by
    intro v hv
    rw [digestLongCpu_eq hc (by omega), hv]
  have hlenA := length_hPrime_1024 A
  have hlenB := length_hPrime_1024 B
  set memory₁ := memory.take 0 ++ Argon2.hPrime 1024 A ++ memory.drop 1024 with hmemory₁
  have hlen₁ : memory₁.length = 2048 := by
    simp only [hmemory₁, List.length_append, List.length_take, List.length_drop, hlenA, hmemory]
    omega
  have hslice : (sliceOf memory₁ 1024 2048 : Outcome Error (List Byte))
      = .ok ((memory₁.drop 1024).take 1024) := if_pos ⟨by omega, by omega⟩
  have hrest : ((memory₁.drop 1024).take 1024).length = 1024 := by
    simp only [List.length_take, List.length_drop, hlen₁]
    omega
  have hhead : memory₁.take 1024 = Argon2.hPrime 1024 A := by
    rw [hmemory₁, List.take_zero, List.nil_append]
    exact List.take_left' hlenA
  rw [fillFirstBlocksCpu, initialHashCpu_eq hc, Outcome.ok_bind]
  simp only [ARGON2_BLOCK_BYTES, ← hA, ← hB]
  rw [sliceOf_zero (by omega), Outcome.ok_bind,
    hfirst _ (by rw [List.length_take, hmemory]; rfl), Outcome.ok_bind,
    copyFromSlice_eq (by omega) (by omega) (by omega), Outcome.ok_bind, ← hmemory₁]
  show (sliceOf memory₁ 1024 2048 >>= fun second => digestLongCpu c second B >>= fun second =>
    copyFromSlice memory₁ 1024 2048 second) = _
  rw [hslice, Outcome.ok_bind, hsecond _ hrest, Outcome.ok_bind,
    copyFromSlice_eq (by omega) (by omega) (by omega), hhead,
    List.drop_eq_nil_of_le (by omega), List.append_nil]
  rfl

end

/-! ### The device -/

namespace Kernel

/-- The loop of `digest_long_1024_global`; `block` is the private array of the hash. -/
def digestLong1024Loop (block : Buffer Byte) (off : ℕ) (out buffer next : Buffer Byte)
    (produced : ℕ) : Buffer Byte × Buffer Byte × Buffer Byte × ℕ :=
  if 64 < 1024 - produced then
    let next := blake2bHashPrivate block next 64 buffer 64
    let buffer := writeAt buffer 0 64 fun i => next i
    let out := writeAt out (off + produced) 32 fun i => buffer i
    digestLong1024Loop block off out buffer next (produced + 32)
  else (out, buffer, next, produced)
termination_by 1024 - produced

/-- The loop and the last hash after it. -/
def digestLong1024Rest (block : Buffer Byte) (off : ℕ) (out buffer next : Buffer Byte)
    (produced : ℕ) : Buffer Byte :=
  let (out, buffer, next, produced) := digestLong1024Loop block off out buffer next produced
  let next := blake2bHashPrivate block next 64 buffer 64
  writeAt out (off + produced) 64 fun i => next i

/-- `digest_long_1024_global(out + off, input72)`; `uninit` is what the private arrays hold
before they are written. -/
def digestLong1024Global (uninit out : Buffer Byte) (off : ℕ) (input72 : Buffer Byte) :
    Buffer Byte :=
  let data := store32LePrivate uninit 0 1024
  let data := writeAt data 4 72 fun i => input72 i
  let buffer := blake2bHashPrivate uninit uninit 64 data 76
  let out := writeAt out off 32 fun i => buffer i
  digestLong1024Rest uninit off out buffer uninit 32

/-- The array `init_data` of `velkar_init_first_blocks`, field by field. -/
def initData (uninit input : Buffer Byte) : Buffer Byte :=
  let initData := store32LePrivate uninit 0 1
  let initData := store32LePrivate initData 4 32
  let initData := store32LePrivate initData 8 8192
  let initData := store32LePrivate initData 12 1
  let initData := store32LePrivate initData 16 0x13
  let initData := store32LePrivate initData 20 2
  let initData := store32LePrivate initData 24 72
  let initData := writeAt initData 28 72 fun i => input i
  let initData := store32LePrivate initData 100 16
  let initData := writeAt initData 104 16 fun i => input (72 + i)
  let initData := store32LePrivate initData 120 0
  store32LePrivate initData 124 0

/-- `velkar_init_first_blocks` for one job. -/
def velkarInitFirstBlocks (uninit memory jobInputs : Buffer Byte)
    (memoryPerJob inputPerJob job : U64) : Buffer Byte :=
  let input : Buffer Byte := fun i => jobInputs ((job * inputPerJob).toNat + i)
  let dst := (job * memoryPerJob).toNat
  let initHash := blake2bHashPrivate uninit uninit 64 (initData uninit input) 128
  let initHash := store32LePrivate initHash 68 0
  let initHash := store32LePrivate initHash 64 0
  let memory := digestLong1024Global uninit memory dst initHash
  let initHash := store32LePrivate initHash 64 1
  digestLong1024Global uninit memory (dst + 1024) initHash

/-! ### Arrays filled from the front -/

theorem bytesAt_writeAt_end (dst : Buffer Byte) (f : ℕ → Byte) {n m k : ℕ} (hk : k = n + m) :
    bytesAt (writeAt dst n m f) 0 k = bytesAt dst 0 n ++ (List.range m).map f := by
  have happend := @bytesAt_writeAt_append dst f 0 n m k hk
  rwa [Nat.zero_add] at happend

theorem bytesAt_store32_end (dst : Buffer Byte) (v : U32) {n k : ℕ} (hk : k = n + 4) :
    bytesAt (store32LePrivate dst n v) 0 k = bytesAt dst 0 n ++ leBytes v := by
  rw [store32LePrivate_eq, bytesAt_writeAt_end dst _ hk]
  rfl

theorem map_eq_bytesAt (b : Buffer Byte) (n : ℕ) : (List.range n).map (fun i => b i)
    = bytesAt b 0 n := by
  simp only [bytesAt, Nat.zero_add]

theorem take_bytesAt (b : Buffer Byte) (off : ℕ) {n m : ℕ} (h : n ≤ m) :
    (bytesAt b off m).take n = bytesAt b off n := by
  obtain ⟨k, rfl⟩ := Nat.exists_eq_add_of_le h
  rw [bytesAt_add]
  exact List.take_left' (length_bytesAt b off n)

/-! ### The long digest -/

theorem digestLong1024Rest_done (block : Buffer Byte) (off : ℕ) (out buffer next : Buffer Byte) :
    digestLong1024Rest block off out buffer next 960
      = writeAt out (off + 960) 64 fun i => blake2bHashPrivate block next 64 buffer 64 i := by
  rw [digestLong1024Rest, digestLong1024Loop, if_neg (by omega)]

theorem digestLong1024Rest_step (block : Buffer Byte) (off : ℕ) (out buffer next : Buffer Byte)
    {produced : ℕ} (h : 64 < 1024 - produced) :
    let next' := blake2bHashPrivate block next 64 buffer 64
    let buffer' := writeAt buffer 0 64 fun i => next' i
    digestLong1024Rest block off out buffer next produced
      = digestLong1024Rest block off (writeAt out (off + produced) 32 fun i => buffer' i) buffer'
          next' (produced + 32) := by
  rw [digestLong1024Rest, digestLong1024Loop, if_pos h]
  rfl

/-- What is left of the chain when `n` turns of the loop are to come; nothing else of the
memory changes. -/
theorem digestLong1024Rest_spec (block : Buffer Byte) (off n : ℕ) (hn : n ≤ 29) :
    ∀ out buffer next : Buffer Byte,
    bytesAt (digestLong1024Rest block off out buffer next (960 - 32 * n)) (off + (960 - 32 * n))
        (32 * n + 64) = Argon2.hPrimeChain n (bytesAt buffer 0 64) 64
      ∧ ∀ a, a < off + (960 - 32 * n) ∨ off + 1024 ≤ a →
        digestLong1024Rest block off out buffer next (960 - 32 * n) a = out a := by
  -- `n` counts the chained digests that are still to be written
  induction n with
  | zero =>
    intro out buffer next
    rw [Nat.mul_zero, Nat.sub_zero, Nat.zero_add, digestLong1024Rest_done]
    constructor
    · rw [bytesAt_writeAt, map_eq_bytesAt, bytesAt_blake2bHashPrivate _ _ _ (by omega) (by omega)]
      rfl
    · intro a ha
      exact writeAt_of_notMem (by omega)
  | succ n ih =>
    intro out buffer next
    set next' := blake2bHashPrivate block next 64 buffer 64 with hnext
    set buffer' := writeAt buffer 0 64 fun i => next' i with hbuffer
    set produced := 960 - 32 * (n + 1) with hproduced
    have hstep := digestLong1024Rest_step block off out buffer next
      (show 64 < 1024 - produced by omega)
    have hp : produced + 32 = 960 - 32 * n := by omega
    simp only [← hnext, ← hbuffer, hp] at hstep
    obtain ⟨hbytes, hframe⟩ := ih (by omega)
      (writeAt out (off + produced) 32 fun i => buffer' i) buffer' next'
    have hV : bytesAt buffer' 0 64 = Blake2b.hash 64 [] (bytesAt buffer 0 64) := by
      rw [hbuffer, bytesAt_writeAt, map_eq_bytesAt, hnext,
        bytesAt_blake2bHashPrivate _ _ _ (by omega) (by omega)]
    rw [hstep]
    constructor
    -- the bytes of this turn lie in front of what the later ones write
    · have hhead : bytesAt (digestLong1024Rest block off
          (writeAt out (off + produced) 32 fun i => buffer' i) buffer' next' (960 - 32 * n))
          (off + produced) 32 = (bytesAt buffer' 0 64).take 32 := by
        rw [take_bytesAt _ _ (by omega), ← map_eq_bytesAt, ← bytesAt_writeAt out (off + produced)]
        apply bytesAt_congr
        intro i hi
        exact hframe _ (by omega)
      rw [show 32 * (n + 1) + 64 = 32 + (32 * n + 64) by omega, bytesAt_add, hhead,
        Nat.add_assoc off, hp, hbytes, hV]
      rfl
    · intro a ha
      rw [hframe a (by omega), writeAt_of_notMem (by omega)]

/-- The device's digest is H' at 1024 bytes. -/
theorem bytesAt_digestLong1024Global (uninit out : Buffer Byte) (off : ℕ)
    (input72 : Buffer Byte) :
    bytesAt (digestLong1024Global uninit out off input72) off 1024
        = Argon2.hPrime 1024 (bytesAt input72 0 72)
      ∧ ∀ a, a < off ∨ off + 1024 ≤ a → digestLong1024Global uninit out off input72 a = out a := by
  set data := writeAt (store32LePrivate uninit 0 1024) 4 72 fun i => input72 i with hdata
  set buffer := blake2bHashPrivate uninit uninit 64 data 76 with hbuffer
  obtain ⟨hbytes, hframe⟩ := digestLong1024Rest_spec uninit off 29 (by omega)
    (writeAt out off 32 fun i => buffer i) buffer uninit
  have hmessage : bytesAt data 0 76 = Argon2.le32 1024 ++ bytesAt input72 0 72 := by
    rw [hdata, bytesAt_writeAt_end _ _ (show 76 = 4 + 72 by rfl), bytesAt_store32_end _ _
      (show 4 = 0 + 4 by rfl), map_eq_bytesAt, le32_eq]
    rfl
  have hV : bytesAt buffer 0 64
      = Blake2b.hash 64 [] (Argon2.le32 1024 ++ bytesAt input72 0 72) := by
    rw [hbuffer, bytesAt_blake2bHashPrivate _ _ _ (by omega) (by omega), hmessage]
  have hglobal : digestLong1024Global uninit out off input72
      = digestLong1024Rest uninit off (writeAt out off 32 fun i => buffer i) buffer uninit
          (960 - 32 * 29) := rfl
  rw [hglobal]
  constructor
  · have hhead : bytesAt (digestLong1024Rest uninit off (writeAt out off 32 fun i => buffer i)
        buffer uninit (960 - 32 * 29)) off 32 = (bytesAt buffer 0 64).take 32 := by
      rw [take_bytesAt _ _ (by omega), ← map_eq_bytesAt, ← bytesAt_writeAt out off]
      apply bytesAt_congr
      intro i hi
      exact hframe _ (by omega)
    rw [show 1024 = 32 + (32 * 29 + 64) by rfl, bytesAt_add, hhead, hV]
    rw [hV] at hbytes
    rw [show off + 32 = off + (960 - 32 * 29) by rfl, hbytes]
    rfl
  · intro a ha
    rw [hframe a (by omega), writeAt_of_notMem (by omega)]

/-! ### The input of the pre-hash -/

theorem bytesAt_initData (uninit input : Buffer Byte) :
    bytesAt (initData uninit input) 0 128
      = leBytes 1#32 ++ leBytes 32#32 ++ leBytes 8192#32 ++ leBytes 1#32 ++ leBytes 0x13#32
        ++ leBytes 2#32 ++ leBytes 72#32 ++ bytesAt input 0 72 ++ leBytes 16#32
        ++ bytesAt input 72 16 ++ leBytes 0#32 ++ leBytes 0#32 := by
  have hsalt : ((List.range 16).map fun i => input (72 + i)) = bytesAt input 72 16 := rfl
  rw [initData, bytesAt_store32_end _ _ (show 128 = 124 + 4 by rfl),
    bytesAt_store32_end _ _ (show 124 = 120 + 4 by rfl),
    bytesAt_writeAt_end _ _ (show 120 = 104 + 16 by rfl), hsalt,
    bytesAt_store32_end _ _ (show 104 = 100 + 4 by rfl),
    bytesAt_writeAt_end _ _ (show 100 = 28 + 72 by rfl), map_eq_bytesAt,
    bytesAt_store32_end _ _ (show 28 = 24 + 4 by rfl),
    bytesAt_store32_end _ _ (show 24 = 20 + 4 by rfl),
    bytesAt_store32_end _ _ (show 20 = 16 + 4 by rfl),
    bytesAt_store32_end _ _ (show 16 = 12 + 4 by rfl),
    bytesAt_store32_end _ _ (show 12 = 8 + 4 by rfl),
    bytesAt_store32_end _ _ (show 8 = 4 + 4 by rfl),
    bytesAt_store32_end _ _ (show 4 = 0 + 4 by rfl)]
  rfl

theorem initData_eq_minerPreHash (uninit input : Buffer Byte) :
    Blake2b.hash 64 [] (bytesAt (initData uninit input) 0 128)
      = minerPreHash (bytesAt input 0 72) (bytesAt input 72 16) := by
  rw [bytesAt_initData, minerPreHash, Argon2.preHash]
  simp only [le32_eq, minerParams, List.length_nil, List.append_nil, length_bytesAt]
  rfl

/-- The hash with a column and lane 0 behind it. -/
theorem bytesAt_initHash {initHash : Buffer Byte} {H : List Byte}
    (hH : bytesAt initHash 0 64 = H) (hz : bytesAt initHash 68 4 = leBytes 0#32) (v : U32) :
    bytesAt (store32LePrivate initHash 64 v) 0 72 = H ++ leBytes v ++ leBytes 0#32
      ∧ bytesAt (store32LePrivate initHash 64 v) 0 64 = H
      ∧ bytesAt (store32LePrivate initHash 64 v) 68 4 = leBytes 0#32 := by
  have hlow : bytesAt (store32LePrivate initHash 64 v) 0 64 = H := by
    rw [store32LePrivate_eq, bytesAt_writeAt_of_disjoint (by omega), hH]
  have hhigh : bytesAt (store32LePrivate initHash 64 v) 68 4 = leBytes 0#32 := by
    rw [store32LePrivate_eq, bytesAt_writeAt_of_disjoint (by omega), hz]
  refine ⟨?_, hlow, hhigh⟩
  rw [show 72 = 68 + 4 by rfl, bytesAt_add, bytesAt_store32_end _ _ (show 68 = 64 + 4 by rfl), hH,
    Nat.zero_add, hhigh]

/-- The device writes the two blocks of RFC 9106, and nothing else. -/
theorem velkarInitFirstBlocks_spec (uninit memory jobInputs : Buffer Byte)
    (memoryPerJob inputPerJob job : U64) :
    bytesAt (velkarInitFirstBlocks uninit memory jobInputs memoryPerJob inputPerJob job)
        (job * memoryPerJob).toNat 2048
      = firstBlocks (bytesAt jobInputs (job * inputPerJob).toNat 72)
          (bytesAt jobInputs ((job * inputPerJob).toNat + 72) 16)
    ∧ ∀ a, a < (job * memoryPerJob).toNat ∨ (job * memoryPerJob).toNat + 2048 ≤ a →
      velkarInitFirstBlocks uninit memory jobInputs memoryPerJob inputPerJob job a = memory a := by
  set row := (job * inputPerJob).toNat with hrow
  set dst := (job * memoryPerJob).toNat with hdst
  set input : Buffer Byte := fun i => jobInputs (row + i) with hinput
  have hpassword : bytesAt input 0 72 = bytesAt jobInputs row 72 := by
    apply bytesAt_congr
    intro i _
    rw [hinput, Nat.zero_add]
  have hsalt : bytesAt input 72 16 = bytesAt jobInputs (row + 72) 16 := by
    apply bytesAt_congr
    intro i _
    rw [hinput, Nat.add_assoc]
  set H := minerPreHash (bytesAt jobInputs row 72) (bytesAt jobInputs (row + 72) 16) with hH
  set hash₀ := store32LePrivate
    (blake2bHashPrivate uninit uninit 64 (initData uninit input) 128) 68 0 with hhash₀
  -- the hash buffer is H₀, then the column and the lane
  have hfront : bytesAt hash₀ 0 64 = H := by
    rw [hhash₀, store32LePrivate_eq, bytesAt_writeAt_of_disjoint (by omega),
      bytesAt_blake2bHashPrivate _ _ _ (by omega) (by omega), initData_eq_minerPreHash, hpassword,
      hsalt]
  have hlane : bytesAt hash₀ 68 4 = leBytes 0#32 := by
    rw [hhash₀, store32LePrivate_eq, bytesAt_writeAt]
    rfl
  -- storing the column does not disturb the rest
  obtain ⟨hcol0, hfront0, hlane0⟩ := bytesAt_initHash hfront hlane 0
  obtain ⟨hcol1, -, -⟩ := bytesAt_initHash hfront0 hlane0 1
  set hash₁ := store32LePrivate hash₀ 64 0 with hhash₁
  obtain ⟨hblock0, hframe0⟩ := bytesAt_digestLong1024Global uninit memory dst hash₁
  set memory₁ := digestLong1024Global uninit memory dst hash₁ with hmemory₁
  obtain ⟨hblock1, hframe1⟩ :=
    bytesAt_digestLong1024Global uninit memory₁ (dst + 1024) (store32LePrivate hash₁ 64 1)
  have hrun : velkarInitFirstBlocks uninit memory jobInputs memoryPerJob inputPerJob job
      = digestLong1024Global uninit memory₁ (dst + 1024) (store32LePrivate hash₁ 64 1) := rfl
  rw [hrun]
  constructor
  -- the second block is written after the first and does not touch it
  · have hkeep : bytesAt (digestLong1024Global uninit memory₁ (dst + 1024)
        (store32LePrivate hash₁ 64 1)) dst 1024 = bytesAt memory₁ dst 1024 := by
      apply bytesAt_congr
      intro i hi
      exact hframe1 _ (by omega)
    rw [show 2048 = 1024 + 1024 by rfl, bytesAt_add, hkeep, hblock0, hblock1, hcol0, hcol1]
    rfl
  · intro a ha
    rw [hframe1 a (by omega), hframe0 a (by omega)]

end Kernel

/-! ### Both write the same blocks -/

/-- The device and the host write the same first two blocks, those of RFC 9106, whatever
the private arrays held before, and the device leaves the rest of the memory alone. -/
theorem first_blocks_agree (c : Crates) (hc : c.Blake2bRight)
    (uninit memory jobInputs : Buffer Byte) (memoryPerJob inputPerJob job : U64)
    (blocks : List Byte) (hblocks : blocks.length = 2048) :
    let row := (job * inputPerJob).toNat
    let region := (job * memoryPerJob).toNat
    let password := bytesAt jobInputs row 72
    let salt := bytesAt jobInputs (row + 72) 16
    let memory' :=
      Kernel.velkarInitFirstBlocks uninit memory jobInputs memoryPerJob inputPerJob job
    let hash := Argon2.preHash ⟨1, 1, 2048⟩ 32 8192 password salt [] []
    fillFirstBlocksCpu c blocks password salt = .ok (bytesAt memory' region 2048)
    ∧ bytesAt memory' region 2048
        = Argon2.hPrime 1024 (hash ++ Argon2.le32 0 ++ Argon2.le32 0)
          ++ Argon2.hPrime 1024 (hash ++ Argon2.le32 1 ++ Argon2.le32 0)
    ∧ ∀ a, a < region ∨ region + 2048 ≤ a → memory' a = memory a := by
  intro row region password salt memory' hash
  obtain ⟨hbytes, hframe⟩ := Kernel.velkarInitFirstBlocks_spec uninit memory jobInputs memoryPerJob
    inputPerJob job
  refine ⟨?_, hbytes, hframe⟩
  rw [fillFirstBlocksCpu_eq hc hblocks]
  exact congrArg Outcome.ok hbytes.symm

/-- Crates whose BLAKE2b is that of the standard. -/
def blake2bCrates : Crates where
  f1600 := id
  blake2b n key data :=
    Vector.ofFn fun i => (Blake2b.hash n key data).getD i.val 0
  argon2id _ _ _ _ _ := Vector.replicate 32 0

theorem blake2bCrates_right : blake2bCrates.Blake2bRight := by
  intro n key data _ hn _
  apply List.ext_getElem
  · simp [Blake2b.length_hash hn]
  · intro i h₁ h₂
    simp [blake2bCrates, List.getD_eq_getElem?_getD, List.getElem?_eq_getElem h₂]

/-- The second job of a batch, on a device whose buffers are all zero. -/
theorem first_blocks_agree_second :
    fillFirstBlocksCpu blake2bCrates (List.replicate 2048 0) (bytesAt (fun _ => 0) 192 72)
        (bytesAt (fun _ => 0) (192 + 72) 16)
      = .ok (bytesAt (Kernel.velkarInitFirstBlocks (fun _ => 0) (fun _ => 0) (fun _ => 0)
          8388608#64 192#64 1#64) 8388608 2048) :=
  (first_blocks_agree blake2bCrates blake2bCrates_right (fun _ => 0) (fun _ => 0) (fun _ => 0)
    8388608#64 192#64 1#64 (List.replicate 2048 0) List.length_replicate).1
