/-
Block templates and their serialisation (`proto/rpc.proto`, `src/pow.rs`).

`serializeHeader` feeds a header to the header hash field by field.  For the
pre-PoW hash it writes zeros in place of nonce and timestamp, so that neither
reaches that hash (`serializeHeader_congr`).  Every `unwrap` of the code is a
possible panic.
-/
import VelkarMiner.Rust
import VelkarMiner.Hasher

open Bytes Rust

/-! ### Messages -/

/-- A transaction, by its encoded message: the miner passes it on unread. -/
structure RpcTransaction where
  wire : List Byte
deriving DecidableEq

/-- The verbose data of a block, by its encoded message. -/
structure RpcBlockVerboseData where
  wire : List Byte
deriving DecidableEq

structure RpcBlockLevelParents where
  parentHashes : List Str
deriving DecidableEq

/-- The timestamp is signed and kept in two's complement. -/
structure RpcBlockHeader where
  version : U32
  parents : List RpcBlockLevelParents
  hashMerkleRoot : Str
  acceptedIdMerkleRoot : Str
  utxoCommitment : Str
  timestamp : U64
  bits : U32
  nonce : U64
  daaScore : U64
  blueWork : Str
  pruningPoint : Str
  blueScore : U64
deriving DecidableEq

structure RpcBlock where
  header : Option RpcBlockHeader
  transactions : List RpcTransaction
  verboseData : Option RpcBlockVerboseData
deriving DecidableEq

/-! ### Hexadecimal fields -/

inductive FromHexError where
  | oddLength
  | invalidStringLength
  | invalidHexCharacter (c : Byte) (index : ℕ)
deriving DecidableEq

/-- The value of one hexadecimal digit. -/
def hexVal (c : Byte) (idx : ℕ) : Except FromHexError Byte :=
  if 65 ≤ c ∧ c ≤ 70 then .ok (c - 65 + 10)
  else if 97 ≤ c ∧ c ≤ 102 then .ok (c - 97 + 10)
  else if 48 ≤ c ∧ c ≤ 57 then .ok (c - 48)
  else .error (.invalidHexCharacter c idx)

/-- The bytes written into a slice of `n` bytes. -/
def decodeToSlice (data : List Byte) (n : ℕ) : Except FromHexError (List Byte) :=
  if data.length % 2 ≠ 0 then .error .oddLength
  else if data.length / 2 ≠ n then .error .invalidStringLength
  else (List.range n).mapM fun i => do
    let high ← hexVal (data.getD (2 * i) 0) (2 * i)
    let low ← hexVal (data.getD (2 * i + 1) 0) (2 * i + 1)
    pure (high <<< 4 ||| low)

/-! ### The serialisation -/

/-- `to_le_bytes`. -/
def leBytes {w : ℕ} (x : BitVec w) : List Byte := (List.range (w / 8)).map (leByte x)

/-- `u16::try_from(version)`. -/
def tryIntoU16 (x : U32) : Option U16 := if x.toNat < 2 ^ 16 then some (x.setWidth 16) else none

/-- `decode_to_slice(field, &mut hash).unwrap()` and the update with it. -/
def writeHash (hasher : HeaderHasher) (field : Str) : Outcome Error HeaderHasher := do
  let hash ← Outcome.unwrap (decodeToSlice (asBytes field) 32)
  pure (hasher.write hash)

/-- One level of parents. -/
def writeParents (hasher : HeaderHasher) (parent : RpcBlockLevelParents) :
    Outcome Error HeaderHasher :=
  parent.parentHashes.foldlM writeHash
    (hasher.write (leBytes (BitVec.ofNat 64 parent.parentHashes.length)))

/-- The blue work, padded to whole bytes, goes into the front of a 32-byte buffer. -/
def writeBlueWork (hasher : HeaderHasher) (blueWork : Str) : Outcome Error HeaderHasher := do
  let data := asBytes blueWork
  let blueWorkLen := (data.length + 1) / 2
  if blueWorkLen ≤ 32 then
    let hash ← Outcome.unwrap
      (decodeToSlice (if data.length % 2 = 0 then data else asBytes ('0' :: blueWork)) blueWorkLen)
    pure ((hasher.write (leBytes (BitVec.ofNat 64 blueWorkLen))).write hash)
  else
    -- `&mut hash[..blue_work_len]` is out of range
    Outcome.panic

def serializeHeader (hasher : HeaderHasher) (header : RpcBlockHeader) (forPrePow : Bool) :
    Outcome Error HeaderHasher := do
  let (nonce, timestamp) : U64 × U64 :=
    if forPrePow then (0, 0) else (header.nonce, header.timestamp)
  let version ← Outcome.expect (tryIntoU16 header.version)
  let hasher := (hasher.write (leBytes version)).write
    (leBytes (BitVec.ofNat 64 header.parents.length))
  let hasher ← header.parents.foldlM writeParents hasher
  let hasher ← writeHash hasher header.hashMerkleRoot
  let hasher ← writeHash hasher header.acceptedIdMerkleRoot
  let hasher ← writeHash hasher header.utxoCommitment
  let hasher := ((((hasher.write (leBytes timestamp)).write (leBytes header.bits)).write
    (leBytes nonce)).write (leBytes header.daaScore)).write (leBytes header.blueScore)
  let hasher ← writeBlueWork hasher header.blueWork
  writeHash hasher header.pruningPoint

/-- Neither nonce nor timestamp is part of the pre-PoW serialisation. -/
theorem serializeHeader_congr (hasher : HeaderHasher) (header : RpcBlockHeader)
    (nonce timestamp : U64) :
    serializeHeader hasher { header with nonce := nonce, timestamp := timestamp } true
      = serializeHeader hasher header true := rfl
