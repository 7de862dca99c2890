/-
The precomputed sponge states of `src/pow/hasher.rs`.

`PowHasher` and `HeavyHasher` start from a table of 25 words instead of hashing
their cSHAKE256 customisation.  The table is the state after the domain block
with both padding marks of the only message length XORed in (`powHasher_initial`,
`heavyHasher_initial`); XOR commutes with what the message adds, so the one
permutation that is left gives cSHAKE256 of the message (`cshake256_of_initial`).
-/
import VelkarMiner.Cshake
import VelkarMiner.Header

open Bytes Cshake Keccak

/-! ### The tables -/

def POW_DOMAIN : List Byte := asciiBytes "ProofOfWorkHash".toList

def HEAVY_DOMAIN : List Byte := asciiBytes "HeavyHash".toList

/-- The words of the padding after a message of 80 bytes. -/
def powPadding : List U64 := [4, 0, 0, 0, 0, 0, 0x8000000000000000]

/-- The words of the padding after a message of 32 bytes. -/
def heavyPadding : List U64 := 4 :: List.replicate 11 0 ++ [0x8000000000000000]

/-- The state after a domain block of the given words. -/
theorem prefixState_toList {S : List Byte} {words : List U64}
    (h : domainBlock [] S = wordBytes words) (hlen : words.length = 17) :
    (prefixState [] S).toList = (List.range 24).foldl roundL (words ++ List.replicate 8 0) := by
  have hblock : (domainBlock [] S).length = rate := by
    rw [h, length_wordBytes, hlen]
    rfl
  have hlanes : (xorLanes (Vector.replicate 25 0) words).toList = words ++ List.replicate 8 0 := by
    apply List.ext_getElem
    · simp [hlen]
    · intro i h₁ h₂
      have hi : i < 25 := by simpa using h₁
      rw [Vector.getElem_toList, getElem_xorLanes, Vector.getElem_replicate]
      by_cases hw : i < 17
      · rw [List.getElem_append_left (by omega), List.getD_eq_getElem _ _ (by omega)]
        exact BitVec.zero_xor
      · rw [List.getElem_append_right (by omega), List.getElem_replicate,
          List.getD_eq_default _ _ (by omega)]
        rfl
  rw [prefixState, absorb_block hblock, h, xorBlock_wordBytes, toList_keccakF, hlanes]

theorem powHasher_initial : PowHasher.INITIAL_STATE
    = xorLanes (prefixState [] POW_DOMAIN) (List.replicate 10 0 ++ powPadding) := by
  have hblock : domainBlock [] POW_DOMAIN = wordBytes
      ([8237215664151037953, 8245905539669061487, 448612354155] ++ List.replicate 14 0) := by
    decide +kernel
  rw [← Vector.toList_inj, xorLanes, Vector.toList_mapIdx, prefixState_toList hblock rfl]
  decide +kernel

theorem heavyHasher_initial : HeavyHasher.INITIAL_STATE
    = xorLanes (prefixState [] HEAVY_DOMAIN) (List.replicate 4 0 ++ heavyPadding) := by
  have hblock : domainBlock [] HEAVY_DOMAIN = wordBytes
      ([7298162365286156289, 29400259242849889] ++ List.replicate 15 0) := by
    decide +kernel
  rw [← Vector.toList_inj, xorLanes, Vector.toList_mapIdx, prefixState_toList hblock rfl]
  decide +kernel

/-! ### The message words -/

/-- The words of the first message. -/
def powWords (prePowHash : Hash) (timestamp nonce : U64) : List U64 :=
  prePowHash.words.toList ++ [timestamp, 0, 0, 0, 0, nonce]

theorem length_powWords (prePowHash : Hash) (timestamp nonce : U64) :
    (powWords prePowHash timestamp nonce).length = 10 := by
  simp [powWords]

theorem wordBytes_powWords (prePowHash : Hash) (timestamp nonce : U64) :
    wordBytes (powWords prePowHash timestamp nonce)
      = prePowHash.toLeBytes.toList ++ leBytes timestamp ++ List.replicate 32 0
        ++ leBytes nonce := by
  have hzero : wordBytes [0, 0, 0, 0] = List.replicate 32 0 := by decide +kernel
  have hone : ∀ x : U64, wordBytes [x] = leBytes x := fun x => List.flatMap_singleton _ _
  rw [powWords, show [timestamp, 0, 0, 0, 0, nonce] = [timestamp] ++ ([0, 0, 0, 0] ++ [nonce]) from
    rfl, wordBytes_append, wordBytes_append, wordBytes_append, hzero, hone, hone,
    ← toList_bytesOfWords, List.append_assoc, List.append_assoc]
  rfl

/-- The first four lanes of a state, as a hash. -/
def front (A : Vector U64 25) : Hash := ⟨Vector.ofFn fun i => A.toList.getD i.val 0⟩

/-- What `new` and the nonce add to the table. -/
theorem finalizeWithNonce_eq (c : Crates) (prePowHash : Hash) (timestamp nonce : U64) :
    (PowHasher.new prePowHash timestamp).finalizeWithNonce c nonce
      = front (c.f1600 (xorLanes PowHasher.INITIAL_STATE
          (powWords prePowHash timestamp nonce))) := by
  have hstate : (PowHasher.new prePowHash timestamp).words.set 9
      ((PowHasher.new prePowHash timestamp).words[9] ^^^ nonce)
      = xorLanes PowHasher.INITIAL_STATE (powWords prePowHash timestamp nonce) := by
    apply Vector.ext
    intro i hi
    rw [getElem_xorLanes, powWords, Uint256.toList_words]
    by_cases h10 : 10 ≤ i
    · have hout : prePowHash.words[i]? = none := Vector.getElem?_eq_none (by omega)
      rw [Vector.getElem_set_ne _ _ (by omega), PowHasher.new, Vector.getElem_set_ne _ _ (by omega),
        xorWords, Vector.getElem_mapIdx, hout, List.getD_eq_default _ _ (by simpa using h10)]
      rfl
    · have hlt : i < 10 := by omega
      interval_cases i <;> simp [PowHasher.new, xorWords]
  rw [PowHasher.finalizeWithNonce, hstate, front]
  apply Uint256.ext
  apply Vector.ext
  intro i hi
  simp [List.getD_eq_getElem?_getD, show i < 25 by omega]

theorem heavyHasher_hash_eq (c : Crates) (inHash : Hash) : HeavyHasher.hash c inHash
    = front (c.f1600 (xorLanes HeavyHasher.INITIAL_STATE inHash.words.toList)) := by
  have hstate : xorWords HeavyHasher.INITIAL_STATE inHash.words
      = xorLanes HeavyHasher.INITIAL_STATE inHash.words.toList := by
    apply Vector.ext
    intro i hi
    rw [getElem_xorLanes, xorWords, Vector.getElem_mapIdx, List.getD_eq_getElem?_getD,
      Vector.getElem?_toList]
  rw [HeavyHasher.hash, hstate, front]
  apply Uint256.ext
  apply Vector.ext
  intro i hi
  simp [List.getD_eq_getElem?_getD, show i < 25 by omega]

/-- The hash read off a state is its first 32 bytes. -/
theorem toLeBytes_front (A : Vector U64 25) :
    (front A).toLeBytes.toList = (bytesOfWords A).toList.take 32 := by
  apply List.ext_getElem
  · simp
  · intro i h₁ h₂
    have hi : i < 32 := by simpa using h₁
    have hlt : i / 8 < 25 := by omega
    rw [Vector.getElem_toList, Uint256.getElem_toLeBytes _ _ hi, List.getElem_take,
      Vector.getElem_toList, getElem_bytesOfWords, front, Vector.getElem_ofFn]
    simp [List.getD_eq_getElem?_getD, hlt]

/-! ### Both stages are cSHAKE256 -/

/-- Crates whose permutation is Keccak-f[1600]. -/
def keccakCrates : Crates where
  f1600 := keccakF
  blake2b n _ _ := Vector.replicate n 0
  argon2id _ _ _ _ _ := Vector.replicate 32 0

theorem sponge_states_right (c : Crates) (hf : ∀ A, c.f1600 A = keccakF A) :
    (∀ (prePowHash : Hash) (timestamp nonce : U64),
      ((PowHasher.new prePowHash timestamp).finalizeWithNonce c nonce).toLeBytes.toList
        = cshake256 32 [] (asciiBytes "ProofOfWorkHash".toList)
            (prePowHash.toLeBytes.toList ++ leBytes timestamp ++ List.replicate 32 0
              ++ leBytes nonce))
    ∧ ∀ inHash : Hash, (HeavyHasher.hash c inHash).toLeBytes.toList
        = cshake256 32 [] (asciiBytes "HeavyHash".toList) inHash.toLeBytes.toList := by
  constructor
  · intro prePowHash timestamp nonce
    -- the padding of the message is what the initial state holds beyond the header
    have htail : padding 0x04#8 (8 * (powWords prePowHash timestamp nonce).length)
        = wordBytes powPadding := by
      rw [length_powWords]
      decide +kernel
    have hadd := xorLanes_xorLanes (prefixState [] POW_DOMAIN)
      (powWords prePowHash timestamp nonce) powPadding
    rw [length_powWords, ← powHasher_initial] at hadd
    rw [← wordBytes_powWords, cshake256_wordBytes (by decide) (by decide) (by decide)
      (by rw [length_powWords]; decide) htail]
    show _ = (bytesOfWords (keccakF (xorLanes (prefixState [] POW_DOMAIN) _))).toList.take 32
    rw [← hadd, finalizeWithNonce_eq, toLeBytes_front, hf]
  · intro inHash
    have hlen : inHash.words.toList.length = 4 := by simp
    have htail : padding 0x04#8 (8 * inHash.words.toList.length) = wordBytes heavyPadding := by
      rw [hlen]
      decide +kernel
    have hadd := xorLanes_xorLanes (prefixState [] HEAVY_DOMAIN) inHash.words.toList heavyPadding
    rw [hlen, ← heavyHasher_initial] at hadd
    have hbytes : inHash.toLeBytes.toList = wordBytes inHash.words.toList :=
      toList_bytesOfWords inHash.words
    rw [hbytes, cshake256_wordBytes (by decide) (by decide)
      (by decide) (by rw [hlen]; decide) htail]
    show _ = (bytesOfWords (keccakF (xorLanes (prefixState [] HEAVY_DOMAIN) _))).toList.take 32
    rw [← hadd, heavyHasher_hash_eq, toLeBytes_front, hf]

/-- Both stages of the message of zeros, with the permutation of the standard. -/
theorem sponge_states_right_zero :
    ((PowHasher.new (Uint256.fromU64 0) 0).finalizeWithNonce keccakCrates 0).toLeBytes.toList
        = cshake256 32 [] (asciiBytes "ProofOfWorkHash".toList)
            ((Uint256.fromU64 0).toLeBytes.toList ++ leBytes (0 : U64) ++ List.replicate 32 0
              ++ leBytes (0 : U64))
    ∧ (HeavyHasher.hash keccakCrates (Uint256.fromU64 0)).toLeBytes.toList
        = cshake256 32 [] (asciiBytes "HeavyHash".toList) (Uint256.fromU64 0).toLeBytes.toList :=
  have h := sponge_states_right keccakCrates fun _ => rfl
  ⟨h.1 (Uint256.fromU64 0) 0 0, h.2 (Uint256.fromU64 0)⟩
