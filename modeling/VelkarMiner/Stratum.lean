/-
The client side of the stratum protocol (`src/stratum.rs`).

A pool sends one JSON value a line.  `handleLine` keeps the announced
difficulty and the extranonce, and turns a `mining.notify` into the call of
`process_job` it ends with.  `serde_json` is the parameter `SerdeJson`: a
parser of lines and the display of a value.
-/
import VelkarMiner.Target

open Bytes Rust

/-! ### JSON -/

/-- A JSON number: an unsigned or a negative 64-bit integer (in two's
complement), or the bits of a double. -/
inductive Number where
  | posInt (n : U64)
  | negInt (n : U64)
  | float (bits : U64)

inductive Value where
  | null
  | bool (b : Bool)
  | number (n : Number)
  | string (s : Str)
  | array (xs : List Value)
  | object (fields : List (Str × Value))

namespace Value

def get (self : Value) (key : Str) : Option Value :=
  match self with
  | object fields => fields.lookup key
  | _ => none

def asStr : Value → Option Str
  | string s => some s
  | _ => none

def asArray : Value → Option (List Value)
  | array xs => some xs
  | _ => none

def asU64 : Value → Option U64
  | number (.posInt n) => some n
  | _ => none

/-- `as_i64`, in two's complement. -/
def asI64 : Value → Option U64
  | number (.posInt n) => if n.toNat < 2 ^ 63 then some n else none
  | number (.negInt n) => some n
  | _ => none

def isNull : Value → Bool
  | null => true
  | _ => false

end Value

structure SerdeJson where
  fromStr : Str → Except Str Value
  display : Value → Str

/-! ### The handler -/

/-- The fields of the handler that a line can change. -/
structure StratumHandler where
  currentDifficulty : Option Str
  nonceMask : U64
  nonceFixed : U64
deriving DecidableEq

/-- The handler of a fresh connection. -/
def StratumHandler.connect : StratumHandler := ⟨none, BitVec.allOnes 64, 0⟩

/-- The arguments of `process_job`. -/
structure StratumJob where
  jobId : Str
  prePowHash : Uint256
  timestamp : U64
  blockTarget : Uint256
  shareTarget : Uint256
  nonceMask : U64
  nonceFixed : U64
deriving DecidableEq

/-- A handler and the calls of `process_job` it has made, the latest first. -/
structure Session where
  handler : StratumHandler
  jobs : List StratumJob
deriving DecidableEq

/-- The value of `extranonce1` behind the prefixes. -/
def extranonceValue (extranonce : Str) : Outcome Error ℕ :=
  if extranonce = [] then .ok 0 else Outcome.ofExcept .parseInt (fromStrRadix 64 16 extranonce)

/-- The width of both parts in `u32`. -/
def extranonceBits (checks : Bool) (extranonce : Str) (freeBits : ℕ) : Outcome Error ℕ := do
  let fixedBits ← mulU32 checks (len extranonce % 2 ^ 32) 4
  addU32 checks fixedBits freeBits

/-- The end of `set_extranonce`: the widths have been added, the fields are set. -/
def placeExtranonce (checks : Bool) (fixed freeBits bits : ℕ) : Method Session Error Unit :=
  if bits > 64 then
    Method.lift
      (.err (.message "extranonce1 and extranonce2 exceed the 64-bit Velkar nonce".toList))
  else do
    Method.modify fun session => { session with handler := { session.handler with
      nonceMask := if freeBits = 64 then BitVec.allOnes 64 else ((1 : U64) <<< freeBits) - 1 } }
    let nonceFixed ← Method.lift (shlU64 checks (BitVec.ofNat 64 fixed) freeBits)
    Method.modify fun session => { session with handler := { session.handler with
      nonceFixed := nonceFixed } }

/-- `set_extranonce`, in a build with (`true`) or without overflow checks. -/
def setExtranonce (checks : Bool) (extranonce : Str) (nonceSize : U32) :
    Method Session Error Unit := do
  let freeBits ← Method.lift (Outcome.okOr
    (if nonceSize.toNat * 8 < 2 ^ 32 then some (nonceSize.toNat * 8) else none)
    (.message "invalid extranonce2 size".toList))
  if freeBits > 64 then
    Method.lift (.err (.message "extranonce2 is larger than the 64-bit Velkar nonce".toList))
  else
    let extranonce := trimStart0x extranonce
    let fixed ← Method.lift (extranonceValue extranonce)
    let bits ← Method.lift (extranonceBits checks extranonce freeBits)
    placeExtranonce checks fixed freeBits bits

/-- A size of more than eight bytes is an error. -/
theorem setExtranonce_large (checks : Bool) (extranonce : Str) {nonceSize : U32}
    (h : 8 < nonceSize.toNat) (session : Session) :
    ∃ e, setExtranonce checks extranonce nonceSize session = (.err e, session) := by
  rw [setExtranonce]
  simp only [Method.lift_bind_run]
  by_cases hmul : nonceSize.toNat * 8 < 2 ^ 32
  · rw [if_pos hmul, Outcome.okOr_some]
    simp only
    rw [if_pos (by omega)]
    exact ⟨_, rfl⟩
  · rw [if_neg hmul, Outcome.okOr_none]
    exact ⟨_, rfl⟩

/-- What is left to do for the sizes that pass. -/
theorem setExtranonce_small (checks : Bool) (extranonce : Str) {nonceSize : U32}
    (h : nonceSize.toNat ≤ 8) :
    setExtranonce checks extranonce nonceSize
      = Method.lift (extranonceValue (trimStart0x extranonce)) >>= fun fixed =>
          Method.lift (extranonceBits checks (trimStart0x extranonce) (nonceSize.toNat * 8))
            >>= fun bits => placeExtranonce checks fixed (nonceSize.toNat * 8) bits := by
  funext session
  rw [setExtranonce, if_pos (by omega), Outcome.okOr_some, Method.lift_bind_run]
  simp only
  rw [if_neg (by omega)]

/-! ### Job payloads -/

/-- Byte `i` of a hexadecimal text: `u8::from_str_radix(&s[2 * i..2 * i + 2], 16)`. -/
def hexPair (s : Str) (i : ℕ) : Outcome Error Byte := do
  let pair ← slice s (2 * i) (2 * i + 2)
  let byte ← Outcome.ofExcept .parseInt (fromStrRadix 8 16 pair)
  pure (BitVec.ofNat 8 byte)

def hexPairs (n : ℕ) (s : Str) : Outcome Error (List Byte) := (List.range n).mapM (hexPair s)

/-- `format!("{hex:0>64}")`: the width counts characters. -/
def pad64 (hex : Str) : Str := List.replicate (64 - hex.length) '0' ++ hex

def parseTargetHex (value : Option Value) : Outcome Error (Option Uint256) :=
  match value.bind Value.asStr with
  | none => .ok none
  | some text =>
    let hex := strip0x (trim text)
    if hex = [] ∨ len hex > 64 then .ok none
    else
      match hexPairs 32 (pad64 hex) with
      | .ok bytes =>
        .ok (some (Uint256.fromLeBytes (Vector.ofFn fun i => bytes.getD (31 - i.val) 0)))
      | .err _ => .ok none
      | .panic => .panic

/-- What a `mining.notify` says beside the job's name. -/
structure JobPayload where
  prePowHash : Uint256
  timestamp : U64
  blockTarget : Uint256
  shareTarget : Option Uint256

/-- The two targets, from their positions in the parameters. -/
def jobTargets (params : List Value) (i : ℕ) (prePowHash : Uint256) (timestamp : U64) :
    Outcome Error (Option JobPayload) := do
  let blockTarget ← parseTargetHex params[i]?
  let blockTarget ← Outcome.okOr blockTarget (.message "missing block target".toList)
  let shareTarget ← parseTargetHex params[i + 1]?
  pure (some ⟨prePowHash, timestamp, blockTarget, shareTarget⟩)

def jobWord (word : Value) : Outcome Error U64 :=
  Outcome.okOr word.asU64 (.message "invalid job word".toList)

/-- The four words of the array form. -/
def jobWords (words : List Value) : Outcome Error Uint256 := do
  let words ← words.mapM jobWord
  pure (Uint256.fromLeBytes (Vector.ofFn fun i => leByte (words.getD (i.val / 8) 0) (i.val % 8)))

/-- Hash and timestamp of the string form. -/
def largeJobHash (largeJob : Str) : Outcome Error (Uint256 × U64) := do
  let hashHex ← slice largeJob 0 64
  let tsHex ← slice largeJob 64 80
  let bytes ← hexPairs 32 hashHex
  let ts ← Outcome.ofExcept .parseInt (fromStrRadix 64 16 tsHex)
  pure (Uint256.fromLeBytes (Vector.ofFn fun i => bytes.getD i.val 0), BitVec.ofNat 64 ts)

/-- The payload of a job; `none` for a form that is ignored with a warning. -/
def jobPayload (params : List Value) : Outcome Error (Option JobPayload) :=
  match params[1]?.bind Value.asArray with
  | some words =>
    if words.length ≠ 4 then .ok none
    else do
      let prePowHash ← jobWords words
      let timestamp ← Outcome.okOr (params[2]?.bind Value.asI64)
        (.message "missing timestamp".toList)
      jobTargets params 3 prePowHash timestamp
  | none =>
    match params[1]?.bind Value.asStr with
    | some largeJob =>
      if len largeJob < 80 then .ok none
      else do
        let (prePowHash, timestamp) ← largeJobHash largeJob
        jobTargets params 2 prePowHash timestamp
    | none => .ok none

/-! ### Lines -/

def setDifficulty (serde : SerdeJson) (value : Value) : Method Session Error Unit :=
  match ((value.get "params".toList).bind Value.asArray).bind List.head? with
  | some diff => Method.modify fun session => { session with handler := { session.handler with
      currentDifficulty := some (serde.display diff) } }
  | none => pure ()

def notify (value : Value) : Method Session Error Unit := fun session =>
  match (value.get "params".toList).bind Value.asArray with
  | none => (.ok (), session)
  | some params =>
    match params.head?.bind Value.asStr, session.handler.currentDifficulty with
    | some jobId, some diff =>
      match u256FromStratumDifficultyStr diff with
      | none => (.ok (), session)
      | some fallbackShareTarget =>
        match jobPayload params with
        | .panic => (.panic, session)
        | .err e => (.err e, session)
        | .ok none => (.ok (), session)
        | .ok (some payload) =>
          (.ok (), { session with
            jobs := { jobId
                      prePowHash := payload.prePowHash
                      timestamp := payload.timestamp
                      blockTarget := payload.blockTarget
                      shareTarget := payload.shareTarget.getD fallbackShareTarget
                      nonceMask := session.handler.nonceMask
                      nonceFixed := session.handler.nonceFixed } :: session.jobs })
    | _, _ => (.ok (), session)

def extranonceMethod (checks : Bool) (value : Value) : Method Session Error Unit := do
  let params ← Method.lift (Outcome.okOr ((value.get "params".toList).bind Value.asArray)
    (.message "missing extranonce parameters".toList))
  let extranonce ← Method.lift (Outcome.okOr (params.head?.bind Value.asStr)
    (.message "missing extranonce1".toList))
  let nonceSize ← Method.lift (Outcome.okOr (params[1]?.bind Value.asU64)
    (.message "missing extranonce2 size".toList))
  setExtranonce checks extranonce (nonceSize.setWidth 32)

/-- The extranonce in the result of a subscription. -/
def subscribeResult (checks : Bool) (result : Value) : Method Session Error Unit :=
  match result.asArray with
  | none => pure ()
  | some xs =>
    match xs[1]?.bind Value.asStr, xs[2]?.bind Value.asU64 with
    | some extranonce, some nonceSize => setExtranonce checks extranonce (nonceSize.setWidth 32)
    | _, _ => pure ()

def handleValue (serde : SerdeJson) (checks : Bool) (value : Value) : Method Session Error Unit :=
  match (value.get "method".toList).bind Value.asStr with
  | some method =>
    if method = "mining.set_difficulty".toList then setDifficulty serde value
    else if method = "set_extranonce".toList ∨ method = "mining.set_extranonce".toList then
      extranonceMethod checks value
    else if method = "mining.notify".toList then notify value
    else pure ()
  | none =>
    if ((value.get "error".toList).map fun e => !e.isNull).getD false then pure ()
    else
      match value.get "result".toList with
      | some result => subscribeResult checks result
      | none => pure ()

def handleLine (serde : SerdeJson) (checks : Bool) (line : Str) : Method Session Error Unit := do
  let value ← Method.lift (Outcome.ofExcept .json (serde.fromStr line))
  handleValue serde checks value
