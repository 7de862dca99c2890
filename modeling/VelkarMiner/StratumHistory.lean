/-
What the lines of a pool leave behind (`StratumHandler::handle_line`).

A line changes at most one of the difficulty, the extranonce and the jobs, and
nothing when it is rejected.  So the handler after any lines is a function of the
messages they carried: the latest difficulty and the latest accepted extranonce.

* `rejected_line_changes_nothing` — the effect of one line;
* `handleValue_run`, `handler_of_lines` — the session after a message, and the handler as a
  function of the lines so far;
* `jobs_reflect_history` — what a delivered job carries, and that the two forms of a job are
  read alike.
-/
import VelkarMiner.StratumSafety
import VelkarMiner.Extranonce

open Bytes Rust

/-! ### The effect of one line -/

/-- What a line may change. -/
inductive Update (session : Session) : Session → Prop
  | nothing : Update session session
  | difficulty (diff : Option Str) : Update session
      { session with handler := { session.handler with currentDifficulty := diff } }
  | extranonce (nonceMask nonceFixed : U64) : Update session
      { session with handler := { session.handler with
        nonceMask := nonceMask, nonceFixed := nonceFixed } }
  | job (job : StratumJob) : Update session { session with jobs := job :: session.jobs }

/-- An outcome that is an error comes with the session as it was. -/
structure Effect (session : Session) (out : Outcome Error Unit × Session) : Prop where
  err : ∀ e, out.1 = .err e → out.2 = session
  update : Update session out.2

theorem Effect.same (session : Session) (r : Outcome Error Unit) : Effect session (r, session) :=
  ⟨fun _ _ => rfl, .nothing⟩

theorem Effect.of_update {session t : Session} {r : Outcome Error Unit} (hr : ∀ e, r ≠ .err e)
    (ht : Update session t) : Effect session (r, t) :=
  ⟨fun e he => absurd he (hr e), ht⟩

theorem setDifficulty_effect (serde : SerdeJson) (value : Value) (session : Session) :
    Effect session (setDifficulty serde value session) := by
  rw [setDifficulty]
  cases ((value.get "params".toList).bind Value.asArray).bind List.head? with
  | some diff => exact Effect.of_update (by simp) (.difficulty _)
  | none => exact Effect.same session _

theorem placeExtranonce_effect (checks : Bool) (fixed freeBits bits : ℕ) (session : Session) :
    Effect session (placeExtranonce checks fixed freeBits bits session) := by
  rw [placeExtranonce]
  split
  · exact Effect.same session _
  · simp only [Method.modify_bind_run, Method.lift_bind_run]
    -- the shift is no error: it panics or it yields the fixed bits
    cases hshift : (shlU64 checks (BitVec.ofNat 64 fixed) freeBits : Outcome Error U64) with
    | err e =>
      rw [shlU64] at hshift
      split at hshift
      · cases hshift
      · split at hshift
        · cases hshift
        · cases hshift
    | panic => exact Effect.of_update (by simp) (.extranonce _ session.handler.nonceFixed)
    | ok nonceFixed => exact Effect.of_update (by simp) (.extranonce _ nonceFixed)

theorem setExtranonce_effect (checks : Bool) (extranonce : Str) (nonceSize : U32)
    (session : Session) : Effect session (setExtranonce checks extranonce nonceSize session) := by
  obtain hsize | hsize := lt_or_ge 8 nonceSize.toNat
  · obtain ⟨e, he⟩ := setExtranonce_large checks extranonce hsize session
    rw [he]
    exact Effect.same session _
  · rw [setExtranonce_small checks extranonce hsize, Method.lift_bind_run]
    cases extranonceValue (trimStart0x extranonce) with
    | err e => exact Effect.same session _
    | panic => exact Effect.same session _
    | ok fixed =>
      simp only [Method.lift_bind_run]
      cases extranonceBits checks (trimStart0x extranonce) (nonceSize.toNat * 8) with
      | err e => exact Effect.same session _
      | panic => exact Effect.same session _
      | ok bits => exact placeExtranonce_effect checks fixed _ bits session

theorem extranonceMethod_effect (checks : Bool) (value : Value) (session : Session) :
    Effect session (extranonceMethod checks value session) := by
  rw [extranonceMethod, Method.lift_bind_run]
  cases (value.get "params".toList).bind Value.asArray with
  | none => exact Effect.same session _
  | some params =>
    simp only [Outcome.okOr_some]
    rw [Method.lift_bind_run]
    cases params.head?.bind Value.asStr with
    | none => exact Effect.same session _
    | some extranonce =>
      simp only [Outcome.okOr_some]
      rw [Method.lift_bind_run]
      cases params[1]?.bind Value.asU64 with
      | none => exact Effect.same session _
      | some nonceSize => exact setExtranonce_effect checks extranonce _ session

theorem subscribeResult_effect (checks : Bool) (result : Value) (session : Session) :
    Effect session (subscribeResult checks result session) := by
  rw [subscribeResult]
  cases result.asArray with
  | none => exact Effect.same session _
  | some xs =>
    simp only
    cases xs[1]?.bind Value.asStr with
    | none => exact Effect.same session _
    | some extranonce =>
      cases xs[2]?.bind Value.asU64 with
      | none => exact Effect.same session _
      | some nonceSize => exact setExtranonce_effect checks extranonce _ session

theorem notify_effect (value : Value) (session : Session) :
    Effect session (notify value session) := by
  rw [notify]
  split
  · exact Effect.same session _
  · split
    · split
      · exact Effect.same session _
      · split
        · exact Effect.same session _
        · exact Effect.same session _
        · exact Effect.same session _
        · exact Effect.of_update (by simp) (.job _)
    · exact Effect.same session _

theorem handleValue_effect (serde : SerdeJson) (checks : Bool) (value : Value) (session : Session) :
    Effect session (handleValue serde checks value session) := by
  rw [handleValue]
  cases (value.get "method".toList).bind Value.asStr with
  | some method =>
    simp only
    split
    · exact setDifficulty_effect serde value session
    · split
      · exact extranonceMethod_effect checks value session
      · split
        · exact notify_effect value session
        · exact Effect.same session _
  | none =>
    simp only
    split
    · exact Effect.same session _
    · cases value.get "result".toList with
      | none => exact Effect.same session _
      | some result => exact subscribeResult_effect checks result session

/-- A rejected line changes nothing, and no line changes more than one thing. -/
theorem rejected_line_changes_nothing (serde : SerdeJson) (checks : Bool) (line : Str)
    (session : Session) : Effect session (handleLine serde checks line session) := by
  rw [handleLine, Method.lift_bind_run]
  cases serde.fromStr line with
  | error e => exact Effect.same session _
  | ok value => exact handleValue_effect serde checks value session

/-! ### The messages of a line -/

/-- What a line says, when it is JSON. -/
def onLine {β : Type} (serde : SerdeJson) (f : Value → Option β) (line : Str) : Option β :=
  match serde.fromStr line with
  | .ok value => f value
  | .error _ => none

def method (value : Value) : Option Str := (value.get "method".toList).bind Value.asStr

def params (value : Value) : Option (List Value) := (value.get "params".toList).bind Value.asArray

/-- The difficulty of a `mining.set_difficulty`. -/
def announcedDifficulty (serde : SerdeJson) (value : Value) : Option Str :=
  if method value = some "mining.set_difficulty".toList then
    ((params value).bind List.head?).map serde.display
  else none

/-- An extranonce1 at position `i`, and the size of extranonce2 after it. -/
def extranonceAt (i : ℕ) (xs : List Value) : Option (Str × U32) :=
  (xs[i]?.bind Value.asStr).bind fun extranonce =>
    (xs[i + 1]?.bind Value.asU64).map fun nonceSize => (extranonce, nonceSize.setWidth 32)

/-- The extranonce in a message that may carry one. -/
def extranonceMessage (value : Value) : Option (Str × U32) :=
  match method value with
  | some m =>
    if m = "set_extranonce".toList ∨ m = "mining.set_extranonce".toList then
      (params value).bind (extranonceAt 0)
    else none
  | none =>
    if ((value.get "error".toList).map fun e => !e.isNull).getD false then none
    else ((value.get "result".toList).bind Value.asArray).bind (extranonceAt 1)

/-- Mask and fixed bits of an extranonce that is accepted. -/
def extranonceFields (checks : Bool) (message : Str × U32) : Option (U64 × U64) :=
  match setExtranonce checks message.1 message.2 ⟨.connect, []⟩ with
  | (.ok _, session) => some (session.handler.nonceMask, session.handler.nonceFixed)
  | _ => none

def acceptedExtranonce (checks : Bool) (value : Value) : Option (U64 × U64) :=
  (extranonceMessage value).bind (extranonceFields checks)

/-- The job a `mining.notify` delivers. -/
def notifiedJob (handler : StratumHandler) (value : Value) : Option StratumJob :=
  if method value = some "mining.notify".toList then do
    let params ← params value
    let jobId ← params.head?.bind Value.asStr
    let diff ← handler.currentDifficulty
    let fallbackShareTarget ← u256FromStratumDifficultyStr diff
    match jobPayload params with
    | .ok (some payload) => some {
        jobId
        prePowHash := payload.prePowHash
        timestamp := payload.timestamp
        blockTarget := payload.blockTarget
        shareTarget := payload.shareTarget.getD fallbackShareTarget
        nonceMask := handler.nonceMask
        nonceFixed := handler.nonceFixed }
    | _ => none
  else none

namespace Session

/-- The session with a new extranonce, if there is one. -/
def withExtranonce (session : Session) (fields : Option (U64 × U64)) : Session :=
  { session with handler := { session.handler with
    nonceMask := (fields.map Prod.fst).getD session.handler.nonceMask
    nonceFixed := (fields.map Prod.snd).getD session.handler.nonceFixed } }

@[simp] theorem withExtranonce_none (session : Session) : session.withExtranonce none = session :=
  rfl

/-- The session after a message that does not crash the miner. -/
def after (serde : SerdeJson) (checks : Bool) (session : Session) (value : Value) : Session where
  handler := { (session.withExtranonce (acceptedExtranonce checks value)).handler with
    currentDifficulty := (announcedDifficulty serde value).or session.handler.currentDifficulty }
  jobs := (notifiedJob session.handler value).toList ++ session.jobs

/-- A message that is neither a difficulty nor a job. -/
theorem after_of_none {serde : SerdeJson} {checks : Bool} {value : Value} {session : Session}
    (hdifficulty : announcedDifficulty serde value = none)
    (hjob : notifiedJob session.handler value = none) :
    session.after serde checks value
      = session.withExtranonce ((extranonceMessage value).bind (extranonceFields checks)) := by
  rw [after, hdifficulty, hjob]
  rfl

end Session

/-! ### The handlers, in terms of the messages -/

/-- Whether an extranonce is accepted, and as what, does not depend on the session. -/
theorem setExtranonce_ok_of_ok {checks : Bool} {extranonce : Str} {nonceSize : U32}
    {session t : Session} (h : setExtranonce checks extranonce nonceSize session = (.ok (), t))
    (session' : Session) :
    setExtranonce checks extranonce nonceSize session' = (.ok (), session'.withExtranonce
      (some (t.handler.nonceMask, t.handler.nonceFixed))) := by
  obtain hsize | hsize := lt_or_ge 8 nonceSize.toNat
  · obtain ⟨e, he⟩ := setExtranonce_large checks extranonce hsize session
    rw [he] at h
    cases h
  rw [setExtranonce_small checks extranonce hsize, Method.lift_bind_run] at h ⊢
  cases hfixed : extranonceValue (trimStart0x extranonce) with
  | err e => rw [hfixed] at h; cases h
  | panic => rw [hfixed] at h; cases h
  | ok fixed =>
    simp only [hfixed, Method.lift_bind_run] at h ⊢
    cases hbits : extranonceBits checks (trimStart0x extranonce) (nonceSize.toNat * 8) with
    | err e => rw [hbits] at h; cases h
    | panic => rw [hbits] at h; cases h
    | ok bits =>
      simp only [hbits, placeExtranonce] at h ⊢
      split at h
      case isTrue => cases h
      case isFalse hle =>
        rw [if_neg hle]
        simp only [Method.modify_bind_run, Method.lift_bind_run] at h ⊢
        cases hshift : (shlU64 checks (BitVec.ofNat 64 fixed) (nonceSize.toNat * 8)
          : Outcome Error U64) with
        | err e => rw [hshift] at h; cases h
        | panic => rw [hshift] at h; cases h
        | ok y =>
          simp only [hshift, Method.modify_run, Prod.mk.injEq, true_and] at h ⊢
          rw [← h]
          rfl

theorem extranonceFields_eq_some {checks : Bool} {m : Str × U32} {fields : U64 × U64}
    (session : Session) : extranonceFields checks m = some fields
      ↔ setExtranonce checks m.1 m.2 session = (.ok (), session.withExtranonce (some fields)) := by
  rw [extranonceFields]
  constructor
  · intro h
    split at h
    case h_1 u t hrun =>
      obtain rfl := Option.some.inj h
      exact setExtranonce_ok_of_ok hrun session
    case h_2 => cases h
  · intro h
    rw [setExtranonce_ok_of_ok h]
    rfl

theorem setExtranonce_run {checks : Bool} {m : Str × U32} {session t : Session}
    {r : Outcome Error Unit} (hr : r ≠ .panic)
    (h : setExtranonce checks m.1 m.2 session = (r, t)) :
    t = session.withExtranonce (extranonceFields checks m) := by
  cases r with
  | panic => exact absurd rfl hr
  | ok u =>
    have hfresh := setExtranonce_ok_of_ok h ⟨.connect, []⟩
    have hself := setExtranonce_ok_of_ok h session
    rw [extranonceFields, hfresh]
    exact congrArg Prod.snd (h.symm.trans hself)
  | err e =>
    -- what is an error here is one in the fresh session
    have hfields : extranonceFields checks m = none := by
      rw [extranonceFields]
      split
      case h_1 u t' hfresh =>
        rw [setExtranonce_ok_of_ok hfresh session] at h
        cases h
      case h_2 => rfl
    rw [hfields]
    have heffect := (setExtranonce_effect checks m.1 m.2 session).err e
    rw [h] at heffect
    exact heffect rfl

theorem extranonceMethod_run {checks : Bool} {value : Value} {session t : Session}
    {r : Outcome Error Unit} (hr : r ≠ .panic)
    (h : extranonceMethod checks value session = (r, t)) :
    t = session.withExtranonce
      (((params value).bind (extranonceAt 0)).bind (extranonceFields checks)) := by
  rw [extranonceMethod, Method.lift_bind_run] at h
  rw [params]
  cases hparams : (value.get "params".toList).bind Value.asArray with
  | none =>
    rw [hparams] at h
    exact (congrArg Prod.snd h).symm
  | some xs =>
    rw [hparams, Outcome.okOr_some] at h
    simp only at h
    rw [List.head?_eq_getElem?, Method.lift_bind_run] at h
    rw [Option.bind_some, extranonceAt]
    cases hextranonce : xs[0]?.bind Value.asStr with
    | none =>
      rw [hextranonce] at h
      exact (congrArg Prod.snd h).symm
    | some extranonce =>
      rw [hextranonce, Outcome.okOr_some] at h
      simp only at h
      rw [Method.lift_bind_run] at h
      rw [Option.bind_some]
      cases hsize : xs[1]?.bind Value.asU64 with
      | none =>
        rw [hsize] at h
        exact (congrArg Prod.snd h).symm
      | some nonceSize =>
        rw [hsize, Outcome.okOr_some] at h
        exact setExtranonce_run (m := (extranonce, nonceSize.setWidth 32)) hr h

theorem subscribeResult_run {checks : Bool} {result : Value} {session t : Session}
    {r : Outcome Error Unit} (hr : r ≠ .panic)
    (h : subscribeResult checks result session = (r, t)) :
    t = session.withExtranonce
      ((result.asArray.bind (extranonceAt 1)).bind (extranonceFields checks)) := by
  rw [subscribeResult] at h
  cases hxs : result.asArray with
  | none =>
    rw [hxs] at h
    exact (congrArg Prod.snd h).symm
  | some xs =>
    rw [hxs] at h
    rw [Option.bind_some, extranonceAt]
    cases hextranonce : xs[1]?.bind Value.asStr with
    | none =>
      simp only [hextranonce] at h
      exact (congrArg Prod.snd h).symm
    | some extranonce =>
      cases hsize : xs[2]?.bind Value.asU64 with
      | none =>
        simp only [hextranonce, hsize] at h
        exact (congrArg Prod.snd h).symm
      | some nonceSize =>
        simp only [hextranonce, hsize] at h
        exact setExtranonce_run (m := (extranonce, nonceSize.setWidth 32)) hr h

theorem notify_run {value : Value} {session : Session}
    (h : method value = some "mining.notify".toList) :
    (notify value session).2
      = { session with jobs := (notifiedJob session.handler value).toList ++ session.jobs } := by
  rw [notify, notifiedJob, if_pos h]
  simp only [params]
  split
  case h_1 hparams =>
    rw [hparams]
    rfl
  case h_2 params hparams =>
    rw [hparams]
    split
    case h_1 jobId diff hjob hdiff =>
      simp only [hjob, hdiff, Option.bind_eq_bind, Option.bind_some]
      split
      -- a difficulty that gives no target: the job is ignored
      case h_1 hnone =>
        rw [hnone]
        rfl
      case h_2 fallback hsome =>
        rw [hsome]
        simp only [Option.bind_some]
        cases jobPayload params with
        | panic => rfl
        | err e => rfl
        | ok payload =>
          cases payload with
          | none => rfl
          | some payload => rfl
    -- one of job id and difficulty is missing
    case h_2 hmissing =>
      cases hjob : params.head?.bind Value.asStr with
      | none => simp [hjob]
      | some jobId =>
        cases hdiff : session.handler.currentDifficulty with
        | none => simp
        | some diff => exact absurd hdiff (hmissing jobId diff hjob)

/-- The methods are told apart by their names. -/
theorem announcedDifficulty_of_ne {value : Value} {m : Str} (serde : SerdeJson)
    (h : method value = some m) (hm : m ≠ "mining.set_difficulty".toList) :
    announcedDifficulty serde value = none := by
  rw [announcedDifficulty, h, if_neg fun heq => hm (Option.some.inj heq)]

theorem notifiedJob_of_ne {value : Value} {m : Str} (handler : StratumHandler)
    (h : method value = some m) (hm : m ≠ "mining.notify".toList) :
    notifiedJob handler value = none := by
  rw [notifiedJob, h, if_neg fun heq => hm (Option.some.inj heq)]

theorem extranonceMessage_of_ne {value : Value} {m : Str} (h : method value = some m)
    (hm : ¬ (m = "set_extranonce".toList ∨ m = "mining.set_extranonce".toList)) :
    extranonceMessage value = none := by
  rw [extranonceMessage, h]
  exact if_neg hm

/-- A message that does not crash the miner leaves the session `Session.after` describes. -/
theorem handleValue_run {serde : SerdeJson} {checks : Bool} {value : Value} {session t : Session}
    {r : Outcome Error Unit} (hr : r ≠ .panic)
    (h : handleValue serde checks value session = (r, t)) :
    t = session.after serde checks value := by
  rw [handleValue] at h
  -- a message without a method is a response, and only the answer to the subscription counts
  cases hmethod : method value with
  | none =>
    rw [show (value.get "method".toList).bind Value.asStr = none from hmethod] at h
    have hdifficulty : announcedDifficulty serde value = none := by
      rw [announcedDifficulty, hmethod]
      rfl
    have hjob : notifiedJob session.handler value = none := by
      rw [notifiedJob, hmethod]
      rfl
    rw [Session.after_of_none hdifficulty hjob, extranonceMessage, hmethod]
    simp only at h ⊢
    split at h
    case isTrue herror =>
      rw [if_pos herror]
      exact (congrArg Prod.snd h).symm
    case isFalse herror =>
      rw [if_neg herror]
      cases hresult : value.get "result".toList with
      | none =>
        rw [hresult] at h
        exact (congrArg Prod.snd h).symm
      | some result =>
        rw [hresult] at h
        exact subscribeResult_run hr h
  | some m =>
    rw [show (value.get "method".toList).bind Value.asStr = some m from hmethod] at h
    simp only at h
    split at h
    -- `mining.set_difficulty`
    case isTrue hm =>
      have hjob := notifiedJob_of_ne session.handler hmethod (by rw [hm]; simp)
      have hmessage := extranonceMessage_of_ne hmethod (by rw [hm]; simp)
      rw [Session.after, acceptedExtranonce, hmessage, hjob, announcedDifficulty,
        if_pos (hm ▸ hmethod), params]
      rw [setDifficulty] at h
      cases hdiff : ((value.get "params".toList).bind Value.asArray).bind List.head? with
      | none =>
        rw [hdiff] at h
        exact (congrArg Prod.snd h).symm
      | some diff =>
        rw [hdiff] at h
        exact (congrArg Prod.snd h).symm
    case isFalse hm =>
      have hdifficulty := announcedDifficulty_of_ne serde hmethod hm
      split at h
      -- `set_extranonce`, under either of its names
      case isTrue hm' =>
        have hjob := notifiedJob_of_ne session.handler hmethod (by
          rintro rfl
          simp at hm')
        rw [Session.after_of_none hdifficulty hjob, extranonceMessage, hmethod]
        simp only [if_pos hm']
        exact extranonceMethod_run hr h
      case isFalse hm' =>
        have hmessage := extranonceMessage_of_ne hmethod hm'
        split at h
        -- `mining.notify`
        case isTrue hnotify =>
          have hrun : t = _ := (congrArg Prod.snd h).symm.trans (notify_run (hnotify ▸ hmethod))
          rw [hrun, Session.after, acceptedExtranonce, hmessage, hdifficulty]
          rfl
        case isFalse hnotify =>
          have hjob := notifiedJob_of_ne session.handler hmethod hnotify
          rw [Session.after_of_none hdifficulty hjob, hmessage]
          exact (congrArg Prod.snd h).symm

/-! ### Histories -/

/-- The sessions that lines lead to from a fresh handler.  A rejected line does not end a
history, a crash does. -/
inductive Handled (serde : SerdeJson) (checks : Bool) : List Str → Session → Prop
  | connect : Handled serde checks [] ⟨.connect, []⟩
  | line {lines : List Str} {session t : Session} {line : Str} {r : Outcome Error Unit}
      (hlines : Handled serde checks lines session) (hr : r ≠ .panic)
      (h : handleLine serde checks line session = (r, t)) :
      Handled serde checks (lines ++ [line]) t

theorem Handled.concat {serde : SerdeJson} {checks : Bool} {lines : List Str} {session : Session}
    (hlines : Handled serde checks lines session) {line : Str}
    (hr : (handleLine serde checks line session).1 ≠ .panic) :
    Handled serde checks (lines ++ [line]) (handleLine serde checks line session).2 :=
  .line hlines hr rfl

/-- The last difficulty announced. -/
def latestDifficulty (serde : SerdeJson) (lines : List Str) : Option Str :=
  (lines.filterMap (onLine serde (announcedDifficulty serde))).getLast?

/-- Mask and fixed bits of the last extranonce accepted. -/
def latestExtranonce (serde : SerdeJson) (checks : Bool) (lines : List Str) : U64 × U64 :=
  ((lines.filterMap (onLine serde (acceptedExtranonce checks))).getLast?).getD
    (BitVec.allOnes 64, 0)

theorem getLast?_filterMap_concat {α β : Type} (f : α → Option β) (xs : List α) (x : α) :
    ((xs ++ [x]).filterMap f).getLast? = (f x).or (xs.filterMap f).getLast? := by
  rw [List.filterMap_append]
  cases hx : f x with
  | none => simp [hx]
  | some y => simp [hx]

theorem handleLine_run {serde : SerdeJson} {checks : Bool} {line : Str} {session t : Session}
    {r : Outcome Error Unit} (hr : r ≠ .panic) (h : handleLine serde checks line session = (r, t)) :
    (∃ e, serde.fromStr line = .error e) ∧ t = session
      ∨ ∃ value, serde.fromStr line = .ok value ∧ t = session.after serde checks value := by
  rw [handleLine, Method.lift_bind_run] at h
  cases hline : serde.fromStr line with
  | error e =>
    rw [hline] at h
    exact Or.inl ⟨⟨e, rfl⟩, (congrArg Prod.snd h).symm⟩
  | ok value =>
    rw [hline] at h
    exact Or.inr ⟨value, rfl, handleValue_run hr h⟩

/-- The handler is a function of the lines so far. -/
theorem handler_of_lines {serde : SerdeJson} {checks : Bool} {lines : List Str} {session : Session}
    (h : Handled serde checks lines session) :
    session.handler = ⟨latestDifficulty serde lines, (latestExtranonce serde checks lines).1,
      (latestExtranonce serde checks lines).2⟩ := by
  induction h with
  | connect => rfl
  | @line lines session t line r hlines hr h ih =>
    rw [latestDifficulty, latestExtranonce, getLast?_filterMap_concat, getLast?_filterMap_concat]
    obtain ⟨⟨e, he⟩, rfl⟩ | ⟨value, hvalue, rfl⟩ := handleLine_run hr h
    · rw [ih, onLine, onLine, he]
      rfl
    · have hfields : ∀ fields : Option (U64 × U64),
          (session.withExtranonce fields).handler = ⟨session.handler.currentDifficulty,
            (fields.getD (session.handler.nonceMask, session.handler.nonceFixed)).1,
            (fields.getD (session.handler.nonceMask, session.handler.nonceFixed)).2⟩ := by
        intro fields
        cases fields <;> rfl
      rw [Session.after, hfields, ih, onLine, onLine, hvalue]
      simp only
      cases acceptedExtranonce checks value <;> rfl

/-! ### The two forms of a job -/

/-- Hash and timestamp of a job, in the form of words or of digits, and where the targets
are. -/
inductive PayloadAt (params : List Value) : Vector Byte 32 → U64 → ℕ → Prop
  | words {hash : Vector Byte 32} {timestamp : U64}
      (hwords : params[1]?.bind Value.asArray
        = some ((wordsOfBytes (n := 4) hash).toList.map fun w => .number (.posInt w)))
      (htimestamp : params[2]?.bind Value.asI64 = some timestamp) :
      PayloadAt params hash timestamp 3
  | digits {hash : Vector Byte 32} {timestamp : ℕ} {hashHex tsHex tail : Str}
      (hjob : params[1]?.bind Value.asStr = some (hashHex ++ tsHex ++ tail))
      (hhashHex : len hashHex = 64) (htsHex : len tsHex = 16)
      (hhash : hexPairs 32 hashHex = .ok hash.toList)
      (htimestamp : fromStrRadix 64 16 tsHex = .ok timestamp) :
      PayloadAt params hash (BitVec.ofNat 64 timestamp) 2

theorem mapM_jobWord {words : List Value} {ws : List U64} :
    words.mapM jobWord = .ok ws ↔ words = ws.map fun w => .number (.posInt w) := by
  induction words generalizing ws with
  | nil =>
    rw [List.mapM_nil, Outcome.pure_eq, Outcome.ok.injEq]
    cases ws <;> simp
  | cons word words ih =>
    rw [List.mapM_cons, Outcome.bind_eq_ok]
    constructor
    · rintro ⟨w, hw, hrest⟩
      obtain ⟨ws', hws', heq⟩ := Outcome.bind_eq_ok.mp hrest
      obtain rfl : w :: ws' = ws := Outcome.ok.inj heq
      rw [List.map_cons, ← ih.mp hws']
      -- only the non-negative integers are words
      match word, hw with
      | .number (.posInt n), hw => rw [Outcome.ok.inj hw]
    · intro h
      cases ws with
      | nil => cases h
      | cons w ws =>
        obtain ⟨rfl, hrest⟩ := List.cons.inj h
        refine ⟨w, rfl, ?_⟩
        rw [ih.mpr hrest]
        rfl

theorem jobWords_map (ws : Vector U64 4) :
    jobWords (ws.toList.map fun w => .number (.posInt w)) = .ok ⟨ws⟩ := by
  rw [jobWords, mapM_jobWord.mpr rfl, Outcome.ok_bind, Outcome.pure_eq, Outcome.ok.injEq]
  rw [← Uint256.fromLeBytes_toLeBytes ⟨ws⟩]
  refine congrArg Uint256.fromLeBytes (Vector.ext fun i hi => ?_)
  rw [Uint256.getElem_toLeBytes, Vector.getElem_ofFn, List.getD_eq_getElem?_getD,
    List.getElem?_eq_getElem (by simp; omega)]
  simp

/-- Four words are the words of some hash. -/
theorem jobWords_eq_ok {words : List Value} {prePowHash : Uint256} (hlen : words.length = 4)
    (h : jobWords words = .ok prePowHash) :
    words = prePowHash.words.toList.map fun w => .number (.posInt w) := by
  have hrun := h
  rw [jobWords] at h
  obtain ⟨ws, hws, -⟩ := Outcome.bind_eq_ok.mp h
  obtain rfl := mapM_jobWord.mp hws
  rw [List.length_map] at hlen
  obtain ⟨v, rfl⟩ : ∃ v : Vector U64 4, v.toList = ws := ⟨⟨ws.toArray, by simpa using hlen⟩, rfl⟩
  rw [jobWords_map] at hrun
  rw [← Outcome.ok.inj hrun]

theorem hexPairs_fmtHex (bytes : List Byte) {text : Str}
    (h : text.map Char.toLower = bytes.flatMap fun b => fmtHex 2 b.toNat) :
    hexPairs bytes.length text = .ok bytes := by
  induction bytes generalizing text with
  | nil => rfl
  | cons byte bytes ih =>
    rw [List.flatMap_cons] at h
    obtain ⟨pair, rest, rfl, hpair, hrest⟩ := List.map_eq_append_iff.mp h
    have hdigits := allDigits_of_toLower hpair
    obtain ⟨a, b, rfl⟩ : ∃ a b, pair = [a, b] := by
      have := congrArg List.length hpair
      rw [List.length_map, length_fmtHex] at this
      exact List.length_eq_two.mp this
    have hsize : ∀ c ∈ [a, b], c.utf8Size = 1 := by
      intro c hc
      by_contra hwide
      have := hdigits c hc
      rw [toDigit_eq_none hwide] at this
      cases this
    have hread := fromStrRadix_fmtHex (w := 8) (by norm_num) byte.isLt byte.isLt hpair
    rw [List.cons_append, List.singleton_append, List.length_cons,
      hexPairs_cons_cons (hsize a (by simp)) (hsize b (by simp)), hread, ih hrest]
    simp [Outcome.ofExcept]

theorem length_of_mapM {ε α β : Type} {f : α → Outcome ε β} {xs : List α} {ys : List β}
    (h : xs.mapM f = .ok ys) : ys.length = xs.length := by
  induction xs generalizing ys with
  | nil =>
    obtain rfl : [] = ys := Outcome.ok.inj h
    rfl
  | cons x xs ih =>
    rw [List.mapM_cons] at h
    obtain ⟨y, -, hrest⟩ := Outcome.bind_eq_ok.mp h
    obtain ⟨ys', hys', heq⟩ := Outcome.bind_eq_ok.mp hrest
    obtain rfl : y :: ys' = ys := Outcome.ok.inj heq
    rw [List.length_cons, List.length_cons, ih hys']

/-- A list of 32 bytes, as a hash. -/
theorem toList_ofFn_getD {bytes : List Byte} (h : bytes.length = 32) :
    (Vector.ofFn fun i : Fin 32 => bytes.getD i.val 0).toList = bytes := by
  apply List.ext_getElem
  · simp [h]
  · intro i h₁ h₂
    simp [h₂]

theorem largeJobHash_eq_ok {largeJob : Str} {prePowHash : Uint256} {timestamp : U64} :
    largeJobHash largeJob = .ok (prePowHash, timestamp)
      ↔ ∃ hash : Vector Byte 32, ∃ ts hashHex tsHex tail, largeJob = hashHex ++ tsHex ++ tail
        ∧ len hashHex = 64 ∧ len tsHex = 16 ∧ hexPairs 32 hashHex = .ok hash.toList
        ∧ fromStrRadix 64 16 tsHex = .ok ts ∧ prePowHash = Uint256.fromLeBytes hash
        ∧ timestamp = BitVec.ofNat 64 ts := by
  constructor
  · intro h
    -- the two slices panic unless the string has a character boundary at 64 and at 80
    obtain ⟨-, hpanic⟩ | ⟨hashHex, rest, hsplit, ⟨-, hpanic⟩ | ⟨tsHex, tail, hsplit', hrun⟩⟩ :=
      largeJobHash_cases largeJob
    · rw [hpanic] at h
      cases h
    · rw [hpanic] at h
      cases h
    · rw [hrun] at h
      obtain ⟨bytes, hbytes, h⟩ := Outcome.bind_eq_ok.mp h
      obtain ⟨ts, hts, h⟩ := Outcome.bind_eq_ok.mp h
      obtain ⟨rfl, rfl⟩ := Prod.mk.inj (Outcome.ok.inj h)
      obtain ⟨rfl, hlen⟩ := splitAtByte_eq_some.mp hsplit
      obtain ⟨rfl, hlen'⟩ := splitAtByte_eq_some.mp hsplit'
      have hlength : bytes.length = 32 := (length_of_mapM hbytes).trans List.length_range
      refine ⟨Vector.ofFn fun i => bytes.getD i.val 0, ts, hashHex, tsHex, tail, ?_, hlen, hlen',
        ?_, ?_, rfl, rfl⟩
      · rw [List.append_assoc]
      · rw [hbytes, toList_ofFn_getD hlength]
      · cases hread : fromStrRadix 64 16 tsHex with
        | error e => rw [hread] at hts; cases hts
        | ok ts' => rw [hread] at hts; rw [Outcome.ok.inj hts]
  · rintro ⟨hash, ts, hashHex, tsHex, tail, rfl, hlen, hlen', hbytes, hts, rfl, rfl⟩
    have hsplit : splitAtByte (hashHex ++ tsHex ++ tail) 64 = some (hashHex, tsHex ++ tail) :=
      splitAtByte_eq_some.mpr ⟨List.append_assoc _ _ _, hlen⟩
    have hsplit' : splitAtByte (tsHex ++ tail) (80 - 64) = some (tsHex, tail) :=
      splitAtByte_eq_some.mpr ⟨rfl, hlen'⟩
    rw [largeJobHash, slice_zero, slice, hsplit]
    simp only [Option.elim, Outcome.ok_bind]
    rw [hsplit']
    simp only [Outcome.ok_bind]
    rw [hbytes, hts]
    simp [Outcome.ofExcept]

theorem jobTargets_eq_ok {params : List Value} {i : ℕ} {prePowHash : Uint256} {timestamp : U64}
    {payload : JobPayload} (h : jobTargets params i prePowHash timestamp = .ok (some payload)) :
    payload.prePowHash = prePowHash ∧ payload.timestamp = timestamp
      ∧ parseTargetHex params[i]? = .ok (some payload.blockTarget)
      ∧ parseTargetHex params[i + 1]? = .ok payload.shareTarget := by
  rw [jobTargets] at h
  obtain ⟨blockTarget?, hblock, h⟩ := Outcome.bind_eq_ok.mp h
  obtain ⟨blockTarget, hsome, h⟩ := Outcome.bind_eq_ok.mp h
  obtain ⟨shareTarget, hshare, h⟩ := Outcome.bind_eq_ok.mp h
  obtain rfl := Option.some.inj (Outcome.ok.inj h)
  cases blockTarget? with
  | none => cases hsome
  | some target =>
    obtain rfl := Outcome.ok.inj hsome
    exact ⟨rfl, rfl, hblock, hshare⟩

/-- A payload is one of the two forms, with its targets behind it. -/
theorem jobPayload_eq_ok {params : List Value} {payload : JobPayload}
    (h : jobPayload params = .ok (some payload)) :
    ∃ hash i, PayloadAt params hash payload.timestamp i
      ∧ payload.prePowHash = Uint256.fromLeBytes hash
      ∧ parseTargetHex params[i]? = .ok (some payload.blockTarget)
      ∧ parseTargetHex params[i + 1]? = .ok payload.shareTarget := by
  rw [jobPayload] at h
  cases hwords : params[1]?.bind Value.asArray with
  -- four words and a signed timestamp
  | some words =>
    rw [hwords] at h
    simp only at h
    split at h
    case isTrue => cases h
    case isFalse hlen =>
      obtain ⟨prePowHash, hhash, h⟩ := Outcome.bind_eq_ok.mp h
      obtain ⟨timestamp, hts, h⟩ := Outcome.bind_eq_ok.mp h
      obtain ⟨hprePowHash, htimestamp, hblock, hshare⟩ := jobTargets_eq_ok h
      refine ⟨prePowHash.toLeBytes, 3, ?_, by rw [hprePowHash]; simp, hblock, hshare⟩
      rw [htimestamp]
      refine .words ?_ ?_
      · rw [hwords, jobWords_eq_ok (not_not.mp hlen) hhash, Uint256.toLeBytes,
          wordsOfBytes_bytesOfWords]
      · cases hsigned : params[2]?.bind Value.asI64 with
        | none => rw [hsigned] at hts; cases hts
        | some ts => rw [hsigned] at hts; rw [Outcome.ok.inj hts]
  -- one string of hex digits
  | none =>
    rw [hwords] at h
    simp only at h
    cases hjob : params[1]?.bind Value.asStr with
    | none => rw [hjob] at h; cases h
    | some largeJob =>
      rw [hjob] at h
      simp only at h
      split at h
      case isTrue => cases h
      case isFalse =>
        obtain ⟨⟨prePowHash, timestamp⟩, hhash, h⟩ := Outcome.bind_eq_ok.mp h
        obtain ⟨hprePowHash, htimestamp, hblock, hshare⟩ := jobTargets_eq_ok h
        obtain ⟨hash, ts, hashHex, tsHex, tail, rfl, hlen, hlen', hbytes, hts, rfl, rfl⟩ :=
          largeJobHash_eq_ok.mp hhash
        refine ⟨hash, 2, ?_, hprePowHash, hblock, hshare⟩
        rw [htimestamp]
        exact .digits hjob hlen hlen' hbytes hts

/-- The form of words. -/
theorem jobPayload_words (jobId : Value) (hash : Vector Byte 32) {timestamp : U64}
    (h : timestamp.toNat < 2 ^ 63) (targets : List Value) :
    jobPayload (jobId :: .array ((wordsOfBytes (n := 4) hash).toList.map fun w =>
        .number (.posInt w)) :: .number (.posInt timestamp) :: targets)
      = jobTargets targets 0 (Uint256.fromLeBytes hash) timestamp := by
  have hsigned : Value.asI64 (.number (.posInt timestamp)) = some timestamp := if_pos h
  rw [jobPayload]
  simp only [List.getElem?_cons_succ, List.getElem?_cons_zero, Option.bind_some, Value.asArray,
    List.length_map, Vector.length_toList, ne_eq, not_true_eq_false, if_false, jobWords_map,
    Outcome.ok_bind, hsigned, Outcome.okOr_some]
  rfl

/-- The form of digits: those of the hash, then those of the timestamp. -/
theorem jobPayload_digits (jobId : Value) (hash : Vector Byte 32) (timestamp : U64) {text : Str}
    (h : text.map Char.toLower
      = (hash.toList.flatMap fun b => fmtHex 2 b.toNat) ++ fmtHex 16 timestamp.toNat)
    (targets : List Value) :
    jobPayload (jobId :: .string text :: targets)
      = jobTargets targets 0 (Uint256.fromLeBytes hash) timestamp := by
  obtain ⟨hashHex, tsHex, rfl, hhash, hts⟩ := List.map_eq_append_iff.mp h
  have hlen : len hashHex = 64 := by
    have hdigits : AllDigits 16 hashHex := by
      intro c hc
      have hmem : c.toLower ∈ hashHex.map Char.toLower := List.mem_map_of_mem hc
      rw [hhash] at hmem
      obtain ⟨b, -, hb⟩ := List.mem_flatMap.mp hmem
      exact isSome_toDigit_of_toLower hb
    rw [len_of_allDigits hdigits, ← List.length_map, hhash, List.length_flatMap]
    simp
  have hlen' : len tsHex = 16 := by
    rw [len_of_allDigits (allDigits_of_toLower hts), ← List.length_map, hts, length_fmtHex]
  have hbytes := hexPairs_fmtHex hash.toList hhash
  rw [Vector.length_toList] at hbytes
  have hread := fromStrRadix_fmtHex (w := 64) (by norm_num) timestamp.isLt timestamp.isLt hts
  have hrun : largeJobHash (hashHex ++ tsHex) = .ok (Uint256.fromLeBytes hash, timestamp) :=
    largeJobHash_eq_ok.mpr ⟨hash, timestamp.toNat, hashHex, tsHex, [], by simp, hlen, hlen',
      hbytes, hread, rfl, by simp⟩
  rw [jobPayload]
  simp only [List.getElem?_cons_succ, List.getElem?_cons_zero, Option.bind_some, Value.asArray,
    Value.asStr, len_append, hlen, hlen', hrun, Outcome.ok_bind]
  rfl

/-! ### What a job carries -/

/-- The line is a `mining.notify` with these parameters. -/
def Notifies (serde : SerdeJson) (line : Str) (xs : List Value) : Prop :=
  ∃ value, serde.fromStr line = .ok value ∧ method value = some "mining.notify".toList
    ∧ params value = some xs

/-- The job of these parameters, after the lines before them. -/
structure Reflects (serde : SerdeJson) (checks : Bool) (before : List Str) (xs : List Value)
    (job : StratumJob) : Prop where
  jobId : xs.head?.bind Value.asStr = some job.jobId
  payload : ∃ hash i, PayloadAt xs hash job.timestamp i
    ∧ job.prePowHash = Uint256.fromLeBytes hash
    ∧ parseTargetHex xs[i]? = .ok (some job.blockTarget)
    ∧ (parseTargetHex xs[i + 1]? = .ok (some job.shareTarget)
      ∨ parseTargetHex xs[i + 1]? = .ok none
        ∧ (latestDifficulty serde before).bind u256FromStratumDifficultyStr
          = some job.shareTarget)
  extranonce : (job.nonceMask, job.nonceFixed) = latestExtranonce serde checks before

theorem reflects_of_notifiedJob {serde : SerdeJson} {checks : Bool} {before : List Str}
    {value : Value} {job : StratumJob}
    (h : notifiedJob ⟨latestDifficulty serde before, (latestExtranonce serde checks before).1,
      (latestExtranonce serde checks before).2⟩ value = some job) :
    method value = some "mining.notify".toList
      ∧ ∃ xs, params value = some xs ∧ Reflects serde checks before xs job := by
  rw [notifiedJob] at h
  split at h
  case isFalse => cases h
  case isTrue hmethod =>
    refine ⟨hmethod, ?_⟩
    obtain ⟨xs, hparams, h⟩ := Option.bind_eq_some_iff.mp h
    obtain ⟨jobId, hjobId, h⟩ := Option.bind_eq_some_iff.mp h
    obtain ⟨diff, hdiff, h⟩ := Option.bind_eq_some_iff.mp h
    obtain ⟨fallback, hfallback, h⟩ := Option.bind_eq_some_iff.mp h
    split at h
    case h_2 => cases h
    case h_1 payload hpayload =>
      obtain rfl := Option.some.inj h
      obtain ⟨hash, i, hat, hhash, hblock, hshare⟩ := jobPayload_eq_ok hpayload
      refine ⟨xs, hparams, hjobId, ⟨hash, i, hat, hhash, hblock, ?_⟩, rfl⟩
      cases hown : payload.shareTarget with
      | some shareTarget =>
        rw [hown] at hshare
        exact Or.inl hshare
      | none =>
        rw [hown] at hshare
        refine Or.inr ⟨hshare, ?_⟩
        change latestDifficulty serde before = some diff at hdiff
        rw [hdiff]
        exact hfallback

/-- The jobs, the first one first, are those of some of the lines, in their order. -/
theorem jobs_of_lines {serde : SerdeJson} {checks : Bool} {lines : List Str} {session : Session}
    (h : Handled serde checks lines session) :
    ∃ positions : List ℕ, positions.Pairwise (· < ·) ∧ (∀ n ∈ positions, n < lines.length)
      ∧ List.Forall₂ (fun job n => ∃ line xs, lines[n]? = some line ∧ Notifies serde line xs
          ∧ Reflects serde checks (lines.take n) xs job) session.jobs.reverse positions := by
  induction h with
  | connect => exact ⟨[], List.Pairwise.nil, by simp, List.Forall₂.nil⟩
  | @line lines session t line r hlines hr h ih =>
    obtain ⟨positions, hsorted, hbound, hjobs⟩ := ih
    -- the lines before stay where they are
    have hjobs : List.Forall₂ (fun job n => ∃ l xs, (lines ++ [line])[n]? = some l
        ∧ Notifies serde l xs ∧ Reflects serde checks ((lines ++ [line]).take n) xs job)
        session.jobs.reverse positions := by
      refine hjobs.imp ?_
      rintro job n ⟨l, xs, hl, hnotifies, hreflects⟩
      have hn := (List.getElem?_eq_some_iff.mp hl).1
      refine ⟨l, xs, ?_, hnotifies, ?_⟩
      · rw [List.getElem?_append_left hn, hl]
      · rwa [List.take_append_of_le_length (by omega)]
    have hbound' : ∀ n ∈ positions, n < (lines ++ [line]).length := by
      intro n hn
      have := hbound n hn
      simp
      omega
    obtain ⟨-, rfl⟩ | ⟨value, hvalue, rfl⟩ := handleLine_run hr h
    · exact ⟨positions, hsorted, hbound', hjobs⟩
    · cases hjob : notifiedJob session.handler value with
      | none =>
        refine ⟨positions, hsorted, hbound', ?_⟩
        rw [Session.after, hjob]
        exact hjobs
      | some job =>
        rw [handler_of_lines hlines] at hjob
        obtain ⟨hmethod, xs, hparams, hreflects⟩ := reflects_of_notifiedJob hjob
        rw [← handler_of_lines hlines] at hjob
        refine ⟨positions ++ [lines.length], ?_, ?_, ?_⟩
        · rw [List.pairwise_append]
          refine ⟨hsorted, by simp, ?_⟩
          intro n hn m hm
          rw [List.mem_singleton.mp hm]
          exact hbound n hn
        · intro n hn
          obtain hn | hn := List.mem_append.mp hn
          · exact hbound' n hn
          · rw [List.mem_singleton.mp hn]
            simp
        · rw [Session.after, hjob]
          simp only [Option.toList_some, List.singleton_append, List.reverse_cons]
          refine List.rel_append hjobs (List.Forall₂.cons ?_ List.Forall₂.nil)
          refine ⟨line, xs, by simp, ⟨value, hvalue, hmethod, hparams⟩, ?_⟩
          rwa [List.take_left]

/-- Every job delivered is that of one `mining.notify`, under the latest difficulty and the
latest extranonce; and the two forms of a job are read alike. -/
theorem jobs_reflect_history (serde : SerdeJson) (checks : Bool) :
    (∀ lines session, Handled serde checks lines session →
      ∃ positions : List ℕ, positions.Pairwise (· < ·)
        ∧ List.Forall₂ (fun job n => ∃ line xs, lines[n]? = some line ∧ Notifies serde line xs
            ∧ Reflects serde checks (lines.take n) xs job) session.jobs.reverse positions)
    ∧ ∀ (hash : Vector Byte 32) (timestamp : U64) (text : Str) (jobId : Value)
        (targets : List Value), timestamp.toNat < 2 ^ 63 →
      text.map Char.toLower
        = (hash.toList.flatMap fun b => fmtHex 2 b.toNat) ++ fmtHex 16 timestamp.toNat →
      jobPayload (jobId :: .array ((wordsOfBytes (n := 4) hash).toList.map fun w =>
          .number (.posInt w)) :: .number (.posInt timestamp) :: targets)
        = jobTargets targets 0 (Uint256.fromLeBytes hash) timestamp
      ∧ jobPayload (jobId :: .string text :: targets)
        = jobTargets targets 0 (Uint256.fromLeBytes hash) timestamp := by
  refine ⟨fun lines session h => ?_, fun hash timestamp text jobId targets hts htext => ?_⟩
  · obtain ⟨positions, hsorted, -, hjobs⟩ := jobs_of_lines h
    exact ⟨positions, hsorted, hjobs⟩
  · exact ⟨jobPayload_words jobId hash hts targets,
      jobPayload_digits jobId hash timestamp htext targets⟩

/-- A difficulty and an extranonce, before the line of the sample job. -/
def difficultyLine : Str :=
  "\x7b\"method\":\"mining.set_difficulty\",\"params\":[1]\x7d".toList

def setExtranonceLine : Str :=
  "\x7b\"method\":\"set_extranonce\",\"params\":[\"fe93\",6]\x7d".toList

/-- The parser on the three lines. -/
def historySerde : SerdeJson where
  fromStr := fun line =>
    if line = difficultyLine then
      .ok (.object [("method".toList, .string "mining.set_difficulty".toList),
        ("params".toList, .array [.number (.posInt 1)])])
    else if line = setExtranonceLine then
      .ok (.object [("method".toList, .string "set_extranonce".toList),
        ("params".toList, .array [.string "fe93".toList, .number (.posInt 6)])])
    else noticeSerde.fromStr line
  display := fun _ => "1".toList

theorem sample_history : Handled historySerde false [difficultyLine, setExtranonceLine, noticeLine]
    { noticeSession 0x0000ffffffffffff 0xfe93000000000000 with
      jobs := [noticeJob 0x0000ffffffffffff 0xfe93000000000000] } := by
  have h₁ : Handled historySerde false [difficultyLine] (noticeSession (BitVec.allOnes 64) 0) :=
    .line (r := .ok ()) .connect (by simp) (by decide +kernel)
  have h₂ : Handled historySerde false [difficultyLine, setExtranonceLine]
      (noticeSession 0x0000ffffffffffff 0xfe93000000000000) :=
    .line (r := .ok ()) h₁ (by simp) (by decide +kernel)
  exact .line (r := .ok ()) h₂ (by simp) (by decide +kernel)

/-- The job of the sample history is that of its third line. -/
theorem sample_job_reflects_history :
    ∃ positions : List ℕ, positions.Pairwise (· < ·)
      ∧ List.Forall₂ (fun job n => ∃ line xs,
          [difficultyLine, setExtranonceLine, noticeLine][n]? = some line
          ∧ Notifies historySerde line xs
          ∧ Reflects historySerde false
              ([difficultyLine, setExtranonceLine, noticeLine].take n) xs job)
        [noticeJob 0x0000ffffffffffff 0xfe93000000000000] positions :=
  (jobs_reflect_history historySerde false).1 _ _ sample_history
