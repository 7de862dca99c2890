/-
The extranonce of a stratum session, from the pool's message to the nonce of a share.

`setExtranonce` puts the digits of extranonce1 right above the free bits of
extranonce2, and every job until the next such message carries that mask and
those digits (`mem_jobs_handleLines`).  The digits lead the formatted nonce
exactly when the two parts fill all 16 places, or when they are zeros
(`extranonce_leads_iff`).
-/
import VelkarMiner.Stratum
import VelkarMiner.Pow

open Bytes Rust

/-! ### What an accepted extranonce leaves behind -/

/-- A width that fits is computed exactly in every build. -/
theorem extranonceBits_short (checks : Bool) {digits : Str} {freeBits : ℕ}
    (h : 4 * len digits + freeBits < 2 ^ 32) :
    extranonceBits checks digits freeBits = .ok (4 * len digits + freeBits) := by
  rw [extranonceBits, Nat.mod_eq_of_lt (by omega), mulU32, Nat.mul_comm, if_pos (by omega),
    Outcome.ok_bind, addU32, if_pos h]

/-- A shift by 64 happens without overflow checks only, and is none there. -/
theorem shlU64_eq_ok {checks : Bool} {x y : U64} {s : ℕ}
    (h : (shlU64 checks x s : Outcome Error U64) = .ok y) :
    y = x <<< (s % 64) := by
  rw [shlU64] at h
  split at h
  case isTrue hs =>
    rw [Nat.mod_eq_of_lt hs]
    exact (Outcome.ok.inj h).symm
  case isFalse =>
    split at h
    · cases h
    · exact (Outcome.ok.inj h).symm

/-- The state after an accepted extranonce. -/
theorem setExtranonce_ok {checks : Bool} {extranonce : Str} {nonceSize : U32}
    {session session' : Session}
    (h : setExtranonce checks extranonce nonceSize session = (.ok (), session')) :
    nonceSize.toNat ≤ 8 ∧ ∃ fixed bits, extranonceValue (trimStart0x extranonce) = .ok fixed
      ∧ extranonceBits checks (trimStart0x extranonce) (nonceSize.toNat * 8) = .ok bits ∧ bits ≤ 64
      ∧ session' = { session with handler := { session.handler with
          nonceMask := if nonceSize.toNat * 8 = 64 then BitVec.allOnes 64
            else ((1 : U64) <<< (nonceSize.toNat * 8)) - 1
          nonceFixed := BitVec.ofNat 64 fixed <<< (nonceSize.toNat * 8 % 64) } } := by
  rcases lt_or_ge 8 nonceSize.toNat with hsize | hsize
  · obtain ⟨e, he⟩ := setExtranonce_large checks extranonce hsize session
    rw [he] at h
    cases h
  refine ⟨hsize, ?_⟩
  rw [setExtranonce_small checks extranonce hsize, Method.lift_bind_run] at h
  cases hfixed : extranonceValue (trimStart0x extranonce) with
  | err e => rw [hfixed] at h; cases h
  | panic => rw [hfixed] at h; cases h
  | ok fixed =>
    simp only [hfixed, Method.lift_bind_run] at h
    cases hbits : extranonceBits checks (trimStart0x extranonce) (nonceSize.toNat * 8) with
    | err e => rw [hbits] at h; cases h
    | panic => rw [hbits] at h; cases h
    | ok bits =>
      simp only [hbits, placeExtranonce] at h
      split at h
      case isTrue => cases h
      case isFalse hle =>
        simp only [Method.modify_bind_run, Method.lift_bind_run] at h
        cases hshift : (shlU64 checks (BitVec.ofNat 64 fixed) (nonceSize.toNat * 8)
          : Outcome Error U64) with
        | err e => rw [hshift] at h; cases h
        | panic => rw [hshift] at h; cases h
        | ok y =>
          rw [hshift] at h
          refine ⟨fixed, bits, rfl, rfl, by omega, ?_⟩
          rw [← shlU64_eq_ok hshift]
          exact (congrArg Prod.snd h).symm

/-! ### Later jobs -/

/-- The message is one of those that carry an extranonce. -/
def CarriesExtranonce (value : Value) : Prop :=
  match (value.get "method".toList).bind Value.asStr with
  | some method => method = "set_extranonce".toList ∨ method = "mining.set_extranonce".toList
  | none => (∀ e ∈ value.get "error".toList, e.isNull)
      ∧ ∃ xs, (value.get "result".toList).bind Value.asArray = some xs
      ∧ (xs[1]?.bind Value.asStr).isSome ∧ (xs[2]?.bind Value.asU64).isSome

/-- What `listen` does with the lines it reads: the first error ends the session. -/
def handleLines (serde : SerdeJson) (checks : Bool) : List Str → Method Session Error Unit
  | [] => pure ()
  | line :: lines => handleLine serde checks line >>= fun _ => handleLines serde checks lines

/-- A session with the extranonce of `start`, all of whose later jobs have it too. -/
structure Follows (start session : Session) : Prop where
  nonceMask_eq : session.handler.nonceMask = start.handler.nonceMask
  nonceFixed_eq : session.handler.nonceFixed = start.handler.nonceFixed
  jobs_eq : ∃ new, session.jobs = new ++ start.jobs ∧ ∀ job ∈ new,
    job.nonceMask = start.handler.nonceMask ∧ job.nonceFixed = start.handler.nonceFixed

theorem Follows.refl (session : Session) : Follows session session :=
  ⟨rfl, rfl, [], rfl, by simp⟩

theorem Follows.trans {s t u : Session} (h : Follows s t) (h' : Follows t u) : Follows s u := by
  obtain ⟨new, hjobs, hnew⟩ := h.jobs_eq
  obtain ⟨new', hjobs', hnew'⟩ := h'.jobs_eq
  refine ⟨h'.nonceMask_eq.trans h.nonceMask_eq, h'.nonceFixed_eq.trans h.nonceFixed_eq,
    new' ++ new, by rw [hjobs', hjobs, List.append_assoc], ?_⟩
  intro job hjob
  rcases List.mem_append.mp hjob with hjob | hjob
  · rw [← h.nonceMask_eq, ← h.nonceFixed_eq]
    exact hnew' job hjob
  · exact hnew job hjob

theorem setDifficulty_follows (serde : SerdeJson) (value : Value) (session : Session) :
    Follows session (setDifficulty serde value session).2 := by
  rw [setDifficulty]
  cases ((value.get "params".toList).bind Value.asArray).bind List.head? with
  | some diff => exact ⟨rfl, rfl, [], rfl, by simp⟩
  | none => exact Follows.refl session

theorem notify_follows (value : Value) (session : Session) :
    Follows session (notify value session).2 := by
  rw [notify]
  split
  · exact Follows.refl session
  · split
    · split
      · exact Follows.refl session
      · split
        · exact Follows.refl session
        · exact Follows.refl session
        · exact Follows.refl session
        · exact ⟨rfl, rfl, [_], rfl, by simp⟩
    · exact Follows.refl session

theorem handleValue_follows {serde : SerdeJson} {checks : Bool} {value : Value}
    (h : ¬ CarriesExtranonce value) (session : Session) :
    Follows session (handleValue serde checks value session).2 := by
  rw [CarriesExtranonce] at h
  rw [handleValue]
  cases hmethod : (value.get "method".toList).bind Value.asStr with
  | some method =>
    rw [hmethod] at h
    simp only at h ⊢
    split
    · exact setDifficulty_follows serde value session
    · by_cases hnotify : method = "mining.notify".toList
      · rw [if_pos hnotify]
        exact notify_follows value session
      · rw [if_neg hnotify]
        exact Follows.refl session
  -- a response: only a result with an extranonce and a size sets anything
  | none =>
    rw [hmethod] at h
    simp only at h ⊢
    by_cases herror : ((value.get "error".toList).map fun e => !e.isNull).getD false = true
    · rw [if_pos herror]
      exact Follows.refl session
    · have hnull : ∀ e ∈ value.get "error".toList, e.isNull := by
        intro e he
        rw [Option.mem_def.mp he] at herror
        simpa using herror
      rw [if_neg herror]
      cases hresult : value.get "result".toList with
      | none => exact Follows.refl session
      | some result =>
        simp only [subscribeResult]
        cases hxs : result.asArray with
        | none => exact Follows.refl session
        | some xs =>
          cases he : xs[1]?.bind Value.asStr with
          | none => simpa [he] using Follows.refl session
          | some extranonce =>
            cases hn : xs[2]?.bind Value.asU64 with
            | none => simpa [he, hn] using Follows.refl session
            | some nonceSize =>
              exact absurd
                ⟨hnull, xs, by rw [hresult]; exact hxs, by rw [he]; rfl, by rw [hn]; rfl⟩ h

/-- No line carries an extranonce. -/
def KeepExtranonce (serde : SerdeJson) (lines : List Str) : Prop :=
  ∀ line ∈ lines, ∀ value, serde.fromStr line = .ok value → ¬ CarriesExtranonce value

theorem handleLines_follows {serde : SerdeJson} {checks : Bool} {lines : List Str}
    (h : KeepExtranonce serde lines) (session : Session) :
    Follows session (handleLines serde checks lines session).2 := by
  induction lines generalizing session with
  | nil => exact Follows.refl session
  | cons line lines ih =>
    have hstep : Follows session (handleLine serde checks line session).2 := by
      rw [handleLine, Method.lift_bind_run]
      cases hparse : serde.fromStr line with
      | error e => exact Follows.refl session
      | ok value => exact handleValue_follows (h line (by simp) value hparse) session
    rw [handleLines, Method.bind_run]
    rcases hrun : handleLine serde checks line session with ⟨r, session'⟩
    rw [hrun] at hstep
    cases r with
    | ok _ => exact hstep.trans (ih (fun l hl => h l (by simp [hl])) session')
    | err e => exact hstep
    | panic => exact hstep

/-! ### The formatted nonce -/

/-- The mask of the low bits. -/
theorem toNat_mask {k : ℕ} (hk : k < 64) : (((1 : U64) <<< k) - 1).toNat = 2 ^ k - 1 := by
  have : 2 ^ k < 2 ^ 64 := Nat.pow_lt_pow_right (by norm_num) hk
  have : 0 < 2 ^ k := by positivity
  rw [BitVec.toNat_sub]
  simp [Nat.shiftLeft_eq]
  omega

/-- The value of a nonce whose high part is `v` and whose low part is free. -/
theorem toNat_masked {v k : ℕ} (hk : k < 64) (hv : v * 2 ^ k < 2 ^ 64) (n : U64) :
    ((n &&& (((1 : U64) <<< k) - 1)) ||| BitVec.ofNat 64 v <<< k).toNat
      = n.toNat % 2 ^ k + v * 2 ^ k := by
  have hv64 : v < 2 ^ 64 := lt_of_le_of_lt (Nat.le_mul_of_pos_right _ (by positivity)) hv
  rw [BitVec.toNat_or, BitVec.toNat_and, toNat_mask hk, Nat.and_two_pow_sub_one_eq_mod,
    BitVec.toNat_shiftLeft, BitVec.toNat_ofNat, Nat.mod_eq_of_lt hv64, Nat.shiftLeft_eq,
    Nat.mod_eq_of_lt hv, Nat.or_comm, Nat.add_comm, Nat.mul_comm]
  exact (Nat.two_pow_add_eq_or_of_lt (Nat.mod_lt _ (by positivity)) v).symm

theorem toDigit_eq_zero {c : Char} (h : toDigit 16 c = some 0) : c = '0' := by
  rw [toDigit, Option.filter_eq_some_iff] at h
  have hc : c.toNat = 48 := by
    have := h.1
    split at this
    · simp at this
      omega
    · split at this
      · simp at this
      · split at this
        · simp at this
        · simp at this
  rw [← Char.ofNat_toNat c, hc]

theorem digitsValue_eq_zero_iff {s : Str} (h : AllDigits 16 s) :
    digitsValue 16 s = 0 ↔ ∀ c ∈ s, c = '0' := by
  induction s with
  | nil => simp
  | cons c s ih =>
    obtain ⟨d, hd⟩ := Option.isSome_iff_exists.mp (h c (by simp))
    rw [digitsValue_cons, hd, Option.getD_some, Nat.add_eq_zero_iff, Nat.mul_eq_zero,
      ih fun e he => h e (by simp [he]), List.forall_mem_cons]
    apply and_congr_left'
    constructor
    · rintro (rfl | hpow)
      · exact toDigit_eq_zero hd
      · simp at hpow
    · rintro rfl
      left
      have : toDigit 16 '0' = some 0 := by decide
      rw [this] at hd
      exact (Option.some.inj hd).symm

theorem extranonceValue_of_allDigits {digits : Str} (h : AllDigits 16 digits)
    (hlen : digits.length ≤ 16) : extranonceValue digits = .ok (digitsValue 16 digits) := by
  rw [extranonceValue]
  split
  case isTrue hnil =>
    rw [hnil]
    rfl
  case isFalse hne =>
    have hplus : '+' ∉ digits := fun hmem => absurd (h '+' hmem) (by decide)
    have hfit : digitsValue 16 digits < 2 ^ 64 :=
      calc digitsValue 16 digits < 16 ^ digits.length := digitsValue_lt h
        _ ≤ 16 ^ 16 := Nat.pow_le_pow_right (by norm_num) hlen
        _ = 2 ^ 64 := by norm_num
    rw [fromStrRadix_eq (by norm_num) h hne hplus, if_pos hfit]
    rfl

/-- Digits `g` places below the top lead the nonce only when they are zero. -/
theorem eq_div_two_pow_iff {v g : ℕ} : v = v / 2 ^ (4 * g) ↔ g = 0 ∨ v = 0 := by
  constructor
  · intro h
    rcases Nat.eq_zero_or_pos g with hg | hg
    · exact Or.inl hg
    · rcases Nat.eq_zero_or_pos v with hv | hv
      · exact Or.inr hv
      · have hpow : 1 < 2 ^ (4 * g) := Nat.one_lt_two_pow (by omega)
        have := Nat.div_lt_self hv hpow
        omega
  · rintro (rfl | rfl)
    · simp
    · simp

/-- In the nonces of every later job the digits of extranonce1 come first, precisely when
the two parts fill the nonce or the digits are at most sixteen zeros. -/
theorem extranonce_leads_iff (serde : SerdeJson) (checks : Bool) (computeRank : Matrix64 → ℕ)
    (session start : Session) (extranonce : Str) (nonceSize : U32) (lines : List Str)
    (new : List StratumJob) (job : StratumJob) (id : U64) (s : State)
    (hdigits : AllDigits 16 (trimStart0x extranonce))
    (haccept : setExtranonce checks extranonce nonceSize session = (.ok (), start))
    (hlines : KeepExtranonce serde lines)
    (hjobs : (handleLines serde checks lines start).2.jobs = new ++ start.jobs)
    (hjob : job ∈ new)
    (hs : s ∈ State.fromStratum computeRank id job.jobId job.prePowHash job.timestamp
      job.blockTarget job.shareTarget job.nonceMask job.nonceFixed) :
    (∀ n, (trimStart0x extranonce).map Char.toLower <+: fmtHex 16 (s.applyExtranonce n).toNat)
      ↔ 4 * (trimStart0x extranonce).length + 8 * nonceSize.toNat = 64
        ∨ (∀ c ∈ trimStart0x extranonce, c = '0') ∧ (trimStart0x extranonce).length ≤ 16 := by
  obtain ⟨hsize, fixed, bits, hfixed, hbits, hle, hstart⟩ := setExtranonce_ok haccept
  have hfollows : Follows start (handleLines serde checks lines start).2 :=
    handleLines_follows hlines start
  obtain ⟨new', hjobs', hnew⟩ := hfollows.jobs_eq
  obtain rfl : new = new' := List.append_cancel_right (hjobs.symm.trans hjobs')
  obtain ⟨hmask, hfix⟩ := hnew job hjob
  obtain ⟨matrix, -, rfl⟩ := State.mem_fromComponents.mp hs
  generalize trimStart0x extranonce = digits at *
  have hlt : ∀ n, ((n &&& job.nonceMask) ||| job.nonceFixed).toNat < 16 ^ 16 := fun n =>
    lt_of_lt_of_eq (BitVec.isLt _) (by norm_num)
  simp only [State.applyExtranonce, prefix_fmtHex_iff hdigits (hlt _)]
  by_cases hlen : digits.length ≤ 16
  case neg => exact iff_of_false (fun h => hlen (h 0).1) (by omega)
  simp only [hlen, true_and, and_true]
  rw [extranonceBits_short checks (by rw [len_of_allDigits hdigits]; omega),
    len_of_allDigits hdigits] at hbits
  obtain rfl : _ = bits := Outcome.ok.inj hbits
  obtain rfl : digitsValue 16 digits = fixed :=
    Outcome.ok.inj ((extranonceValue_of_allDigits hdigits hlen).symm.trans hfixed)
  rw [hmask, hfix, hstart]
  simp only
  rcases Nat.lt_or_ge nonceSize.toNat 8 with hsmall | hlarge
  case inr =>
    -- the whole nonce is free, and nothing is left for the digits
    obtain rfl : digits = [] := List.eq_nil_of_length_eq_zero (by omega)
    simp only [digitsValue_nil, List.length_nil]
    refine iff_of_true (fun n => ?_) (Or.inr (by simp))
    rw [eq_comm, Nat.div_eq_zero_iff]
    exact Or.inr (lt_of_lt_of_eq (BitVec.isLt _) (by norm_num))
  set k := nonceSize.toNat * 8 with hk
  obtain ⟨g, hg⟩ : ∃ g, 64 = k + 4 * g + 4 * digits.length :=
    ⟨16 - digits.length - 2 * nonceSize.toNat, by omega⟩
  have hfit : digitsValue 16 digits * 2 ^ k < 2 ^ 64 :=
    calc digitsValue 16 digits * 2 ^ k < 16 ^ digits.length * 2 ^ k :=
          Nat.mul_lt_mul_of_pos_right (digitsValue_lt hdigits) (by positivity)
      _ = 2 ^ (4 * digits.length + k) := by
        rw [show (16 : ℕ) = 2 ^ 4 by norm_num, ← pow_mul, pow_add]
      _ ≤ 2 ^ 64 := Nat.pow_le_pow_right (by norm_num) (by omega)
  have hplace : (16 : ℕ) ^ (16 - digits.length) = 2 ^ k * 2 ^ (4 * g) := by
    rw [show (16 : ℕ) = 2 ^ 4 by norm_num, ← pow_mul, ← pow_add]
    congr 1
    omega
  have hnonce : ∀ n : U64, ((n &&& if k = 64 then BitVec.allOnes 64 else ((1 : U64) <<< k) - 1)
      ||| BitVec.ofNat 64 (digitsValue 16 digits) <<< (k % 64)).toNat / 16 ^ (16 - digits.length)
        = digitsValue 16 digits / 2 ^ (4 * g) := by
    intro n
    rw [if_neg (by omega), Nat.mod_eq_of_lt (by omega : k < 64), toNat_masked (by omega) hfit,
      hplace, ← Nat.div_div_eq_div_mul, Nat.add_mul_div_right _ _ (by positivity),
      Nat.div_eq_of_lt (Nat.mod_lt _ (by positivity)), Nat.zero_add]
  simp only [hnonce, forall_const, eq_div_two_pow_iff, digitsValue_eq_zero_iff hdigits]
  apply or_congr_left
  omega

/-- A job line with the hash of the sample job in the array form. -/
def noticeLine : Str :=
  ("\x7b\"method\":\"mining.notify\",\"params\":[\"1\",[14566434536323540221,"
    ++ "17708695633936273877,16887608807958520181,11892148821749950370],"
    ++ "7,\"ff\",\"ff\"]\x7d").toList

def noticeValue : Value :=
  .object [("method".toList, .string "mining.notify".toList),
    ("params".toList, .array [.string "1".toList,
      .array (State.sampleHash.words.toList.map fun w => .number (.posInt w)),
      .number (.posInt 7), .string "ff".toList, .string "ff".toList])]

/-- The parser on that line. -/
def noticeSerde : SerdeJson where
  fromStr := fun line =>
    if line = noticeLine then .ok noticeValue else .error "expected value".toList
  display := fun _ => []

theorem noticeLine_keeps : KeepExtranonce noticeSerde [noticeLine] := by
  intro line hline value hvalue hcarries
  rw [List.mem_singleton] at hline
  have hparse : noticeSerde.fromStr line = .ok noticeValue := if_pos hline
  obtain rfl : noticeValue = value := Except.ok.inj (hparse.symm.trans hvalue)
  rcases hcarries with h | h
  · exact absurd h (by decide)
  · exact absurd h (by decide)

/-- The session before the extranonce, and the job of the line under a mask and a prefix. -/
def noticeSession (nonceMask nonceFixed : U64) : Session :=
  ⟨⟨some "1".toList, nonceMask, nonceFixed⟩, []⟩

def noticeJob (nonceMask nonceFixed : U64) : StratumJob where
  jobId := "1".toList
  prePowHash := State.sampleHash
  timestamp := 7
  blockTarget := Uint256.ofNat 255
  shareTarget := Uint256.ofNat 255
  nonceMask := nonceMask
  nonceFixed := nonceFixed

/-- The state of that job. -/
def noticeState (nonceMask nonceFixed : U64) : State where
  id := 0
  jobId := some "1".toList
  matrix := State.sampleMatrix
  nonce := 0
  blockTarget := Uint256.ofNat 255
  shareTarget := Uint256.ofNat 255
  block := none
  prePowHash := State.sampleHash
  timestamp := 7
  nonceMask := nonceMask
  nonceFixed := nonceFixed
  hasher := PowHasher.new State.sampleHash 7
  hasher_eq := State.sampleState.hasher_eq
  block_header := State.header_of_none

theorem noticeState_mem (nonceMask nonceFixed : U64) :
    noticeState nonceMask nonceFixed ∈ State.fromStratum (fun _ => 64) 0 "1".toList
      State.sampleHash 7 (Uint256.ofNat 255) (Uint256.ofNat 255) nonceMask nonceFixed :=
  State.mem_fromComponents.mpr ⟨State.sampleMatrix, State.sampleMatrix_mem, rfl⟩

/-- Four digits and six free bytes fill the nonce. -/
theorem fe93_leads_with_six_bytes :
    "fe93".toList
      <+: fmtHex 16 ((noticeState 0x0000ffffffffffff 0xfe93000000000000).applyExtranonce 0).toNat :=
  (extranonce_leads_iff noticeSerde true (fun _ => 64) (noticeSession (BitVec.allOnes 64) 0)
    (noticeSession 0x0000ffffffffffff 0xfe93000000000000) "fe93".toList 6 [noticeLine]
    [noticeJob 0x0000ffffffffffff 0xfe93000000000000]
    (noticeJob 0x0000ffffffffffff 0xfe93000000000000) 0
    (noticeState 0x0000ffffffffffff 0xfe93000000000000) (by decide) (by decide +kernel)
    noticeLine_keeps (by decide +kernel) (by simp) (noticeState_mem _ _)).mpr
      (Or.inl (by decide)) 0

/-- With four free bytes the digits are accepted and end up in the middle. -/
theorem fe93_does_not_lead_with_four_bytes :
    setExtranonce true "fe93".toList 4 (noticeSession (BitVec.allOnes 64) 0)
        = (.ok (), noticeSession 0x00000000ffffffff 0x0000fe9300000000)
      ∧ (handleLines noticeSerde true [noticeLine]
          (noticeSession 0x00000000ffffffff 0x0000fe9300000000)).2.jobs
        = [noticeJob 0x00000000ffffffff 0x0000fe9300000000]
      ∧ noticeState 0x00000000ffffffff 0x0000fe9300000000 ∈ State.fromStratum (fun _ => 64) 0
          "1".toList State.sampleHash 7 (Uint256.ofNat 255) (Uint256.ofNat 255)
          0x00000000ffffffff 0x0000fe9300000000
      ∧ ¬ "fe93".toList <+: fmtHex 16
          ((noticeState 0x00000000ffffffff 0x0000fe9300000000).applyExtranonce 0).toNat :=
  ⟨by decide +kernel, by decide +kernel, noticeState_mem _ _, by decide +kernel⟩
