/-
The hash stages of the proof of work (`src/pow/hasher.rs`).

The permutation `f1600`, BLAKE2b and Argon2id come from assembly and from
crates; they are the fields of `Crates`, and results that need one of them to
follow its standard say so.  The miner's own part is the state of the two
sponges, absorbed in advance, and the inputs of the memory-hard stage.
-/
import VelkarMiner.Keccak
import VelkarMiner.Uint256

open Bytes

/-- What the proof of work takes from outside: the Keccak permutation
(`KeccakF1600` of the assembly or the `keccak` crate), `blake2b_simd` with a
digest length, a key and a message, and `argon2` with memory in KiB, time cost,
lanes, password and salt. -/
structure Crates where
  f1600 : Vector U64 25 → Vector U64 25
  blake2b : (hashLength : ℕ) → (key data : List Byte) → Vector Byte hashLength
  argon2id : (mCost tCost pCost : ℕ) → (password salt : List Byte) → Vector Byte 32

def asciiBytes (s : List Char) : List Byte := s.map fun c => BitVec.ofNat 8 c.toNat

/-- Words XORed into the front of a sponge state. -/
def xorWords {n : ℕ} (state : Vector U64 25) (words : Vector U64 n) : Vector U64 25 :=
  state.mapIdx fun i w => w ^^^ words[i]?.getD 0

/-! ### The first stage -/

/-- The state of the VelkarHash pre-PoW cSHAKE256 stage. -/
structure PowHasher where
  words : Vector U64 25

namespace PowHasher

/-- The initial state, padding bytes included. -/
def INITIAL_STATE : Vector U64 25 :=
  #v[1242148031264380989, 3008272977830772284, 2188519011337848018, 1992179434288343456,
    8876506674959887717, 5399642050693751366, 1745875063082670864, 8605242046444978844,
    17936695144567157056, 3343109343542796272, 1123092876221303306, 4963925045340115282,
    17037383077651887893, 16629644495023626889, 12833675776649114147, 3784524041015224902,
    1082795874807940378, 13952716920571277634, 13411128033953605860, 15060696040649351053,
    9928834659948351306, 5237849264682708699, 12825353012139217522, 6706187291358897596,
    196324915476054915]

def new (prePowHash : Hash) (timestamp : U64) : PowHasher :=
  let start := xorWords INITIAL_STATE prePowHash.words
  ⟨start.set 4 (start[4] ^^^ timestamp)⟩

def finalizeWithNonce (c : Crates) (self : PowHasher) (nonce : U64) : Hash :=
  let state := c.f1600 (self.words.set 9 (self.words[9] ^^^ nonce))
  ⟨Vector.ofFn fun i : Fin 4 => state[i.val]⟩

end PowHasher

/-! ### The heavy-hash stage -/

namespace HeavyHasher

/-- The initial state, padding bytes included. -/
def INITIAL_STATE : Vector U64 25 :=
  #v[4239941492252378377, 8746723911537738262, 8796936657246353646, 1272090201925444760,
    16654558671554924250, 8270816933120786537, 13907396207649043898, 6782861118970774626,
    9239690602118867528, 11582319943599406348, 17596056728278508070, 15212962468105129023,
    7812475424661425213, 3370482334374859748, 5690099369266491460, 8596393687355028144,
    570094237299545110, 9119540418498120711, 16901969272480492857, 13372017233735502424,
    14372891883993151831, 5171152063242093102, 10573107899694386186, 6096431547456407061,
    1592359455985097269]

def hash (c : Crates) (inHash : Hash) : Hash :=
  let state := c.f1600 (xorWords INITIAL_STATE inHash.words)
  ⟨Vector.ofFn fun i : Fin 4 => state[i.val]⟩

end HeavyHasher

/-! ### The memory-hard stage -/

def ARGON_MEMORY_KIB : ℕ := 8 * 1024
def ARGON_TIME_COST : ℕ := 1
def ARGON_LANES : ℕ := 1

/-- The 72-byte password `stage3 ∥ target ∥ nonce`. -/
def memoryHardPassword (stage3 : Hash) (nonce : U64) (target : Uint256) : Vector Byte 72 :=
  Vector.ofFn fun i =>
    if h : i.val < 32 then stage3.toLeBytes[i.val]
    else if h' : i.val < 64 then target.toLeBytes[i.val - 32]
    else leByte nonce (i.val - 64)

/-- The 16-byte salt: the first half of `stage1` XOR the second half of `stage3`. -/
def memoryHardSalt (stage1 stage3 : Hash) : Vector Byte 16 :=
  Vector.ofFn fun i => stage1.toLeBytes[i.val] ^^^ stage3.toLeBytes[i.val + 16]

def memoryHardHash (c : Crates) (stage3 stage1 : Hash) (nonce : U64) (target : Uint256) : Hash :=
  Uint256.fromLeBytes (c.argon2id ARGON_MEMORY_KIB ARGON_TIME_COST ARGON_LANES
    (memoryHardPassword stage3 nonce target).toList (memoryHardSalt stage1 stage3).toList)

/-! ### The header hash -/

def BLOCK_HASH_DOMAIN : List Byte := asciiBytes "BlockHash".toList

/-- The BLAKE2b state of a header hash: the bytes written so far. -/
structure HeaderHasher where
  data : List Byte
deriving DecidableEq

namespace HeaderHasher

def new : HeaderHasher := ⟨[]⟩

def write (self : HeaderHasher) (data : List Byte) : HeaderHasher := ⟨self.data ++ data⟩

def finalize (c : Crates) (self : HeaderHasher) : Hash :=
  Uint256.fromLeBytes (c.blake2b 32 BLOCK_HASH_DOMAIN self.data)

end HeaderHasher
