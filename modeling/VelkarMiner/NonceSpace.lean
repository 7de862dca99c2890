/-
The nonces a pool session mines.

An extranonce leaves the low bits of the nonce free and fixes the others, so
that the counters of a worker run through exactly the nonces it has been
assigned.

* `mask_bijOn` — consecutive counters against the nonces with the fixed bits;
* `nonceConfig_of_lines` — the masks that the lines of a pool can set;
* `Steps.enumerates` — the counters that a loop consumes, step by step;
* `nonce_space_covered` — all of it, for the sessions and for the loops.
-/
import VelkarMiner.StratumHistory
import VelkarMiner.StratumDevfund

open Bytes Rust

/-! ### Masks -/

/-- The low `b` bits are free, a whole number of bytes, and none of them is fixed. -/
structure NonceConfig (nonceMask nonceFixed : U64) (b : ℕ) : Prop where
  dvd : 8 ∣ b
  le : b ≤ 64
  mask : nonceMask.toNat = 2 ^ b - 1
  disjoint : nonceMask &&& nonceFixed = 0

/-- The nonce of `velkar_prepare_jobs` for a job. -/
def prepareJobsNonce (startNonce nonceMask nonceFixed : U64) (job : ℕ) : U64 :=
  ((startNonce + BitVec.ofNat 64 job) &&& nonceMask) ||| nonceFixed

section Mask

variable {b : ℕ} {mask fixed : U64}

theorem toNat_and_mask (hmask : mask.toNat = 2 ^ b - 1) (n : U64) :
    (n &&& mask).toNat = n.toNat % 2 ^ b := by
  rw [BitVec.toNat_and, hmask, Nat.and_two_pow_sub_one_eq_mod]

/-- The free bits of a counter. -/
theorem counter_mod (hb : b ≤ 64) (start : U64) (i : ℕ) :
    (start + BitVec.ofNat 64 i).toNat % 2 ^ b = (start.toNat + i) % 2 ^ b := by
  have hdvd : 2 ^ b ∣ 2 ^ 64 := pow_dvd_pow 2 hb
  rw [BitVec.toNat_add, BitVec.toNat_ofNat, Nat.mod_mod_of_dvd _ hdvd, Nat.add_mod,
    Nat.mod_mod_of_dvd _ hdvd, ← Nat.add_mod]

theorem fixed_of_mask (hdisjoint : mask &&& fixed = 0) {i : ℕ} (h : mask.getLsbD i = true) :
    fixed.getLsbD i = false := by
  have hbit := congrArg (fun x => x.getLsbD i) hdisjoint
  simpa [h] using hbit

theorem and_mask_of_or (hdisjoint : mask &&& fixed = 0) (n : U64) :
    ((n &&& mask) ||| fixed) &&& mask = n &&& mask := by
  apply BitVec.eq_of_getLsbD_eq
  intro i hi
  simp only [BitVec.getLsbD_and, BitVec.getLsbD_or]
  cases hm : mask.getLsbD i with
  | true => simp [fixed_of_mask hdisjoint hm]
  | false => simp

theorem and_not_mask_of_or (hdisjoint : mask &&& fixed = 0) (n : U64) :
    ((n &&& mask) ||| fixed) &&& ~~~mask = fixed := by
  apply BitVec.eq_of_getLsbD_eq
  intro i hi
  simp only [BitVec.getLsbD_and, BitVec.getLsbD_or, BitVec.getLsbD_not, hi, decide_true,
    Bool.true_and]
  cases hm : mask.getLsbD i with
  | true => simp [fixed_of_mask hdisjoint hm]
  | false => simp

/-- As many consecutive counters as there are free values map one-to-one onto the nonces with
the fixed bits. -/
theorem mask_bijOn (h : NonceConfig mask fixed b) (start : U64) :
    Set.BijOn (prepareJobsNonce start mask fixed) (Set.Iio (2 ^ b))
      {m | m &&& ~~~mask = fixed} := by
  refine ⟨fun i _ => and_not_mask_of_or h.disjoint _, fun i hi j hj hij => ?_, fun m hm => ?_⟩
  · have hfree := congrArg (fun x => (x &&& mask).toNat) hij
    simp only [prepareJobsNonce, and_mask_of_or h.disjoint, toNat_and_mask h.mask,
      counter_mod h.le] at hfree
    have hmod : i ≡ j [MOD 2 ^ b] := Nat.ModEq.add_left_cancel' start.toNat hfree
    exact Nat.ModEq.eq_of_lt_of_lt hmod hi hj
  · refine ⟨(m - start).toNat % 2 ^ b, Nat.mod_lt _ (by positivity), ?_⟩
    have hfree : (start + BitVec.ofNat 64 ((m - start).toNat % 2 ^ b)) &&& mask = m &&& mask := by
      apply BitVec.eq_of_toNat_eq
      rw [toNat_and_mask h.mask, toNat_and_mask h.mask, counter_mod h.le, Nat.add_mod_mod,
        ← counter_mod h.le, BitVec.ofNat_toNat, BitVec.setWidth_eq, BitVec.add_comm,
        BitVec.sub_add_cancel]
    obtain rfl : m &&& ~~~mask = fixed := hm
    rw [prepareJobsNonce, hfree, ← BitVec.and_or_distrib_left, BitVec.or_not_self]
    exact BitVec.and_allOnes

end Mask

/-! ### The masks of a session -/

/-- A string that occurs in a value. -/
inductive Value.Mentions : Value → Str → Prop
  | string (s : Str) : Mentions (.string s) s
  | array {xs : List Value} {v : Value} {s : Str} (hv : v ∈ xs) (h : Mentions v s) :
      Mentions (.array xs) s
  | object {fields : List (Str × Value)} {key s : Str} {v : Value} (hv : (key, v) ∈ fields)
      (h : Mentions v s) : Mentions (.object fields) s

/-- No string of a parsed line is longer than the line: an escape takes more bytes than what
it stands for. -/
def SerdeJson.StringsWithin (serde : SerdeJson) : Prop :=
  ∀ line value s, serde.fromStr line = .ok value → value.Mentions s → len s ≤ len line

theorem mem_of_lookup {α β : Type} [BEq α] [LawfulBEq α] {key : α} {v : β} {fields : List (α × β)}
    (h : fields.lookup key = some v) : (key, v) ∈ fields := by
  induction fields with
  | nil => cases h
  | cons field fields ih =>
    obtain ⟨k, w⟩ := field
    rw [List.lookup_cons] at h
    split at h
    case h_1 hk =>
      rw [beq_iff_eq.mp hk, Option.some.inj h]
      exact List.mem_cons_self
    case h_2 => exact List.mem_cons_of_mem _ (ih h)

theorem mentions_of_get {value v : Value} {key s : Str} (hget : value.get key = some v)
    (h : v.Mentions s) : value.Mentions s := by
  cases value with
  | object fields => exact .object (mem_of_lookup hget) h
  | _ => cases hget

theorem mentions_of_extranonceAt {v : Value} {xs : List Value} {i : ℕ} {extranonce : Str}
    {nonceSize : U32} (hxs : v.asArray = some xs)
    (h : extranonceAt i xs = some (extranonce, nonceSize)) : v.Mentions extranonce := by
  obtain ⟨e, he, h⟩ := Option.bind_eq_some_iff.mp h
  obtain ⟨n, -, heq⟩ := Option.map_eq_some_iff.mp h
  obtain ⟨rfl, -⟩ := Prod.mk.inj heq
  obtain ⟨x, hx, hstr⟩ := Option.bind_eq_some_iff.mp he
  have hmem := List.mem_of_getElem? hx
  match v, hxs, x, hstr with
  | .array _, rfl, .string _, rfl => exact .array hmem (.string _)

/-- The extranonce of a message is one of its strings. -/
theorem mentions_extranonce {value : Value} {extranonce : Str} {nonceSize : U32}
    (h : extranonceMessage value = some (extranonce, nonceSize)) : value.Mentions extranonce := by
  rw [extranonceMessage] at h
  split at h
  · split at h
    case isTrue =>
      obtain ⟨xs, hparams, h⟩ := Option.bind_eq_some_iff.mp h
      obtain ⟨v, hget, hxs⟩ := Option.bind_eq_some_iff.mp hparams
      exact mentions_of_get hget (mentions_of_extranonceAt hxs h)
    case isFalse => cases h
  · split at h
    case isTrue => cases h
    case isFalse =>
      obtain ⟨xs, hresult, h⟩ := Option.bind_eq_some_iff.mp h
      obtain ⟨v, hget, hxs⟩ := Option.bind_eq_some_iff.mp hresult
      exact mentions_of_get hget (mentions_of_extranonceAt hxs h)

theorem parseDigits_lt {w r : ℕ} {s : Str} {n : ℕ} (h : parseDigits w 16 r s = .ok n) :
    n < (r + 1) * 16 ^ s.length := by
  induction s generalizing r with
  | nil =>
    obtain rfl : r = n := Except.ok.inj h
    simp
  | cons c s ih =>
    rw [parseDigits] at h
    cases hd : toDigit 16 c with
    | none => rw [hd] at h; cases h
    | some d =>
      rw [hd] at h
      simp only at h
      split at h
      case isTrue =>
        have hlt := toDigit_lt hd
        calc n < (r * 16 + d + 1) * 16 ^ s.length := ih h
          _ ≤ ((r + 1) * 16) * 16 ^ s.length := Nat.mul_le_mul_right _ (by omega)
          _ = (r + 1) * 16 ^ (c :: s).length := by rw [List.length_cons, pow_succ']; ring
      case isFalse => cases h

/-- The parsed digits fit into their own width. -/
theorem fromStrRadix_lt {w : ℕ} {s : Str} {n : ℕ} (h : fromStrRadix w 16 s = .ok n) :
    n < 16 ^ s.length := by
  unfold fromStrRadix at h
  split at h
  · cases h
  · cases h
  · have := parseDigits_lt h
    rw [List.length_cons, pow_succ]
    omega
  · simpa using parseDigits_lt h

theorem extranonceValue_lt {digits : Str} {fixed : ℕ} (h : extranonceValue digits = .ok fixed) :
    fixed < 2 ^ (4 * len digits) := by
  rw [extranonceValue] at h
  split at h
  case isTrue =>
    obtain rfl : 0 = fixed := Outcome.ok.inj h
    positivity
  case isFalse =>
    cases hread : fromStrRadix 64 16 digits with
    | error e => rw [hread] at h; cases h
    | ok n =>
      rw [hread] at h
      obtain rfl : n = fixed := Outcome.ok.inj h
      calc n < 16 ^ digits.length := fromStrRadix_lt hread
        _ = 2 ^ (4 * digits.length) := by rw [pow_mul, show 2 ^ 4 = 16 by rfl]
        _ ≤ 2 ^ (4 * len digits) :=
          Nat.pow_le_pow_right (by norm_num) (Nat.mul_le_mul_left _ (length_le_len _))

theorem len_trimStart0x_le (s : Str) : len (trimStart0x s) ≤ len s := by
  fun_induction trimStart0x s with
  | case1 s ih =>
    rw [len_cons, len_cons]
    omega
  | case2 => exact le_rfl

/-- The two fields of an accepted extranonce. -/
theorem nonceConfig_of_fields {checks : Bool} {extranonce : Str} {nonceSize : U32}
    {fields : U64 × U64} (h : extranonceFields checks (extranonce, nonceSize) = some fields)
    (hlen : len extranonce < 2 ^ 28) : ∃ b, NonceConfig fields.1 fields.2 b := by
  have hrun := (extranonceFields_eq_some (m := (extranonce, nonceSize)) ⟨.connect, []⟩).mp h
  simp only [Session.withExtranonce, Option.map_some, Option.getD_some] at hrun
  obtain ⟨hsize, fixed, bits, hfixed, hbits, hle, heq⟩ := setExtranonce_ok hrun
  obtain ⟨hmask, hshift⟩ : fields.1 = (if nonceSize.toNat * 8 = 64 then BitVec.allOnes 64
      else ((1 : U64) <<< (nonceSize.toNat * 8)) - 1)
      ∧ fields.2 = BitVec.ofNat 64 fixed <<< (nonceSize.toNat * 8 % 64) := by
    simp only [Session.mk.injEq, StratumHandler.mk.injEq] at heq
    exact ⟨heq.1.2.1, heq.1.2.2⟩
  have htrim := len_trimStart0x_le extranonce
  rw [extranonceBits_short checks (by omega)] at hbits
  obtain rfl := Outcome.ok.inj hbits
  have hlt := extranonceValue_lt hfixed
  refine ⟨nonceSize.toNat * 8, ⟨Nat.dvd_mul_left 8 _, by omega, ?_, ?_⟩⟩
  · rw [hmask]
    split
    case isTrue hall => rw [hall]; rfl
    case isFalse hall => exact toNat_mask (by omega)
  · rw [hshift]
    obtain hall | hall := eq_or_ne (nonceSize.toNat * 8) 64
    · -- all bits are free, so nothing has been left for extranonce1
      rw [show 4 * len (trimStart0x extranonce) = 0 by omega, pow_zero] at hlt
      rw [show fixed = 0 by omega]
      simp
    · rw [hmask, if_neg hall, Nat.mod_eq_of_lt (by omega : nonceSize.toNat * 8 < 64)]
      apply BitVec.eq_of_toNat_eq
      rw [BitVec.and_comm, toNat_and_mask (toNat_mask (by omega)), BitVec.toNat_shiftLeft,
        Nat.mod_mod_of_dvd _ (pow_dvd_pow 2 (by omega)), Nat.shiftLeft_eq, Nat.mul_mod_left]
      rfl

theorem nonceConfig_connect : NonceConfig (BitVec.allOnes 64) 0 64 where
  dvd := ⟨8, rfl⟩
  le := le_rfl
  mask := rfl
  disjoint := BitVec.and_zero

/-- The masks in force after some lines, and those of the jobs they have brought. -/
theorem nonceConfig_of_lines {serde : SerdeJson} (hserde : serde.StringsWithin) {checks : Bool}
    {lines : List Str} {session : Session} (h : Handled serde checks lines session)
    (hlines : ∀ line ∈ lines, len line < 2 ^ 28) :
    (∃ b, NonceConfig session.handler.nonceMask session.handler.nonceFixed b)
      ∧ ∀ job ∈ session.jobs, ∃ b, NonceConfig job.nonceMask job.nonceFixed b := by
  induction h with
  | connect => exact ⟨⟨64, nonceConfig_connect⟩, by simp⟩
  | @line lines session t line r _ hr h ih =>
    obtain ⟨hhandler, hjobs⟩ := ih fun l hl => hlines l (by simp [hl])
    obtain ⟨-, rfl⟩ | ⟨value, hvalue, rfl⟩ := handleLine_run hr h
    · exact ⟨hhandler, hjobs⟩
    refine ⟨?_, fun job hjob => ?_⟩
    · simp only [Session.after, Session.withExtranonce]
      cases hfields : acceptedExtranonce checks value with
      | none => exact hhandler
      | some fields =>
        obtain ⟨⟨extranonce, nonceSize⟩, hmessage, hfields⟩ := Option.bind_eq_some_iff.mp hfields
        refine nonceConfig_of_fields hfields ?_
        have := hserde line value extranonce hvalue (mentions_extranonce hmessage)
        have := hlines line (by simp)
        omega
    · obtain hjob | hjob := List.mem_append.mp hjob
      · -- a new job has the masks in force
        rw [Option.mem_toList] at hjob
        obtain ⟨hmask, hfixed⟩ : job.nonceMask = session.handler.nonceMask
            ∧ job.nonceFixed = session.handler.nonceFixed := by
          have hjob : notifiedJob session.handler value = some job := hjob
          rw [notifiedJob] at hjob
          split at hjob
          case isFalse => cases hjob
          case isTrue =>
            obtain ⟨xs, -, hjob⟩ := Option.bind_eq_some_iff.mp hjob
            obtain ⟨jobId, -, hjob⟩ := Option.bind_eq_some_iff.mp hjob
            obtain ⟨diff, -, hjob⟩ := Option.bind_eq_some_iff.mp hjob
            obtain ⟨fallback, -, hjob⟩ := Option.bind_eq_some_iff.mp hjob
            split at hjob
            case h_1 => rw [← Option.some.inj hjob]; exact ⟨rfl, rfl⟩
            case h_2 => cases hjob
        rw [hmask, hfixed]
        exact hhandler
      · exact hjobs job hjob

/-! ### Counters -/

/-- `n` consecutive values of the counter. -/
def counters (start : U64) (n : ℕ) : List U64 :=
  (List.range n).map fun k => start + BitVec.ofNat 64 k

theorem counter_add (start : U64) (a b : ℕ) :
    start + BitVec.ofNat 64 (a + b) = start + BitVec.ofNat 64 a + BitVec.ofNat 64 b := by
  rw [BitVec.ofNat_add, BitVec.add_assoc]

theorem counters_add (start : U64) (a b : ℕ) :
    counters start (a + b) = counters start a ++ counters (start + BitVec.ofNat 64 a) b := by
  rw [counters, counters, counters, List.range_add, List.map_append, List.map_map]
  congr 1
  refine List.map_congr_left fun k _ => ?_
  rw [Function.comp_apply, counter_add]

/-- A loop whose every step consumes the counters from where the last one has stopped consumes
consecutive counters. -/
theorem Machine.Steps.enumerates {σ ε : Type} {M : Machine σ ε} {P : σ → U64 → Prop}
    {consumed : σ × ε → List U64}
    (hstep : ∀ s e t c, P s c → M.step s e t →
      ∃ n, consumed (s, e) = counters c n ∧ P t (c + BitVec.ofNat 64 n))
    {s t : σ} {tr : List (σ × ε)} (h : M.Steps s tr t) {start : U64} (hstart : P s start) :
    ∃ n, tr.flatMap consumed = counters start n ∧ P t (start + BitVec.ofNat 64 n) := by
  induction h with
  | refl => exact ⟨0, rfl, by simpa using hstart⟩
  | step _ hst ih =>
    obtain ⟨n, htr, hnext⟩ := ih
    obtain ⟨k, hk, hnext⟩ := hstep _ _ _ _ hnext hst
    refine ⟨n + k, ?_, ?_⟩
    · rw [List.flatMap_append, htr, List.flatMap_singleton, hk, counters_add]
    · rwa [counter_add]

theorem counters_one (c : U64) : counters c 1 = [c] := by simp [counters]

namespace StratumMiner

variable {ι : Type} [DecidableEq ι]

/-- The counters that a worker evaluates in a step. -/
def evaluated (cfg : Config ι) (w : ι) : Miner ι × Event ι → List U64
  | (m, .hash w' _ _) => if w' = w then [(m.workers w).nonce] else []
  | (m, .batch w' _ _) => if w' = w then counters (m.workers w).nonce cfg.batchSize.toNat else []
  | _ => []

/-- The counter a worker evaluates next.  A CPU advances its counter after the evaluation, and
may be stopped before that. -/
def NextCounter (gpu : Bool) (x : Worker) (c : U64) : Prop :=
  match x.pc with
  | .share _ | .exchange _ _ _ | .submit _ | .advance => c = if gpu then x.nonce else x.nonce + 1
  | .stopped => c = x.nonce ∨ gpu = false ∧ c = x.nonce + 1
  | _ => c = x.nonce

theorem NextCounter.cases {gpu : Bool} {x : Worker} {c : U64} (h : NextCounter gpu x c) :
    c = x.nonce ∨ gpu = false ∧ c = x.nonce + 1 := by
  rw [NextCounter] at h
  split at h <;> cases gpu <;> simp_all

theorem evaluated_of_ne {cfg : Config ι} {w : ι} {m : Miner ι} {e : Event ι}
    (h : e.worker ≠ some w) : evaluated cfg w (m, e) = [] := by
  cases e with
  | hash w' | batch w' => exact if_neg fun heq => h (congrArg some heq)
  | _ => rfl

/-- A step evaluates counters from the next one on, and leaves the one after them next. -/
theorem nextCounter_step {cfg : Config ι} {w : ι} {m m' : Miner ι} {e : Event ι} {c : U64}
    (hc : NextCounter (cfg.gpu w) (m.workers w) c) (h : Step cfg m e m') :
    ∃ n, evaluated cfg w (m, e) = counters c n
      ∧ NextCounter (cfg.gpu w) (m'.workers w) (c + BitVec.ofNat 64 n) := by
  -- a step of another worker, or of none, leaves the counter of `w` alone
  by_cases hw : e.worker = some w
  case neg =>
    refine ⟨0, evaluated_of_ne hw, ?_⟩
    rw [Step.workers_eq h hw]
    simpa using hc
  case pos =>
    have hstay : evaluated cfg w (m, e) = [] → NextCounter (cfg.gpu w) (m'.workers w) c →
        ∃ n, evaluated cfg w (m, e) = counters c n
          ∧ NextCounter (cfg.gpu w) (m'.workers w) (c + BitVec.ofNat 64 n) :=
      fun he hnext => ⟨0, he, by simpa using hnext⟩
    cases h with
    | job | close => cases hw
    -- the two steps that evaluate: a batch of the device and one hash of the processor
    | batch w' i hits hdev hpc hstate =>
      obtain rfl : w' = w := Option.some.inj hw
      simp only [NextCounter, hpc] at hc
      refine ⟨cfg.batchSize.toNat, ?_, ?_⟩
      · rw [evaluated, if_pos rfl, hc]
      · simp only [NextCounter, Miner.set_workers_self]
        rw [hc, BitVec.ofNat_toNat, BitVec.setWidth_eq]
    | hashOffered w' i nonce pow hcpu hpc hstate hnonce hoffer
    | hashRejected w' i nonce hcpu hpc hstate hnonce hoffer =>
      obtain rfl : w' = w := Option.some.inj hw
      simp only [NextCounter, hpc] at hc
      refine ⟨1, ?_, ?_⟩
      · rw [evaluated, if_pos rfl, hc, counters_one]
      · simp only [NextCounter, Miner.set_workers_self, hcpu, hc]
        rfl
    -- the other steps evaluate nothing; they only move the counter to where the next
    -- evaluation looks for it
    | wait w' hpc | pollGpu w' hdev hpc | pollCpu w' hcpu hpc =>
      obtain rfl : w' = w := Option.some.inj hw
      refine hstay rfl ?_
      simpa only [NextCounter, Miner.set_workers_self, hpc] using hc
    | begin w' i hpc =>
      obtain rfl : w' = w := Option.some.inj hw
      refine hstay rfl ?_
      simp only [NextCounter, hpc] at hc
      simp only [NextCounter, Miner.set_workers_self]
      cases cfg.gpu w' <;> exact hc
    | searchFailed w' hdev hpc | shutdown w' hcpu hpc =>
      obtain rfl : w' = w := Option.some.inj hw
      refine hstay rfl ?_
      simp only [NextCounter, hpc] at hc
      simp only [NextCounter, Miner.set_workers_self]
      exact Or.inl hc
    | hitOffered w' i hit rest pow hdev hpc | hitRejected w' i hit rest hdev hpc
    | hitsDone w' hdev hpc =>
      obtain rfl : w' = w := Option.some.inj hw
      refine hstay rfl ?_
      simp only [NextCounter, hpc] at hc
      simpa only [NextCounter, Miner.set_workers_self, hdev, if_true] using hc
    -- a submission ends where the hit was found, in a batch or in the loop of the processor
    | early w' now rest hpc | overtaken w' previous now rest hpc
    | submit w' i jobId rest hpc =>
      obtain rfl : w' = w := Option.some.inj hw
      refine hstay rfl ?_
      simp only [NextCounter, hpc] at hc
      simp only [NextCounter, Miner.set_workers_self, resume]
      cases hgpu : cfg.gpu w' with
      | true => simpa [hgpu] using hc
      | false => simpa [hgpu] using hc
    | due w' now rest hpc | exchanged w' previous now rest hpc =>
      obtain rfl : w' = w := Option.some.inj hw
      refine hstay rfl ?_
      simp only [NextCounter, hpc] at hc
      simpa only [NextCounter, Miner.set_workers_self] using hc
    | submitClosed w' rest hpc | submitNoJob w' i rest hpc =>
      obtain rfl : w' = w := Option.some.inj hw
      refine hstay rfl ?_
      have hcases := hc.cases
      simpa only [NextCounter, Miner.set_workers_self] using hcases
    | advance w' hcpu hpc | advanceLast w' hcpu hpc =>
      obtain rfl : w' = w := Option.some.inj hw
      refine hstay rfl ?_
      simp only [NextCounter, hpc, hcpu, Bool.false_eq_true, if_false] at hc
      simpa only [NextCounter, Miner.set_workers_self] using hc

end StratumMiner

namespace Devfund

/-- The counters that the scheduler evaluates in a step. -/
def evaluated (cfg : Config) : Scheduler × Event → List U64
  | (s, .batch _ _ _) => counters s.nonce cfg.batchSize.toNat
  | _ => []

theorem nextCounter_step {cfg : Config} {s s' : Scheduler} {e : Event} {c : U64}
    (hc : s.nonce = c) (h : Step cfg s e s') :
    ∃ n, evaluated cfg (s, e) = counters c n ∧ s'.nonce = c + BitVec.ofNat 64 n := by
  subst hc
  cases h with
  | batch pool i hits hpc hstate =>
    refine ⟨cfg.batchSize.toNat, rfl, ?_⟩
    rw [BitVec.ofNat_toNat, BitVec.setWidth_eq]
  | _ => exact ⟨0, rfl, (BitVec.add_zero _).symm⟩

end Devfund

/-! ### The nonces of a session -/

theorem batchNonces_counters (s : State) (nonceBase : U64) (batchSize : ℕ) :
    batchNonces s nonceBase batchSize = (counters nonceBase batchSize).map s.applyExtranonce := by
  rw [batchNonces, counters, List.map_map]
  rfl

theorem job_state_bijOn {job : StratumJob} {b : ℕ}
    (h : NonceConfig job.nonceMask job.nonceFixed b) {computeRank : Matrix64 → ℕ} {id : U64}
    {s : State} (hs : s ∈ job.state computeRank id) (start : U64) :
    Set.BijOn (fun i => s.applyExtranonce (start + BitVec.ofNat 64 i)) (Set.Iio (2 ^ b))
      {m | m &&& ~~~job.nonceMask = job.nonceFixed} := by
  obtain ⟨matrix, -, rfl⟩ := State.mem_fromComponents.mp hs
  exact mask_bijOn h start

/-- Whatever extranonce the lines of a pool set, consecutive counters run through the assigned
nonces one-to-one; and every loop evaluates consecutive counters, up to the one it has advanced
to or is about to advance to. -/
theorem nonce_space_covered (serde : SerdeJson) (hserde : serde.StringsWithin) (checks : Bool) :
    (∀ lines session, (∀ line ∈ lines, len line < 2 ^ 28) →
      Handled serde checks lines session →
      (∃ b, NonceConfig session.handler.nonceMask session.handler.nonceFixed b
        ∧ ∀ start, Set.BijOn
            (prepareJobsNonce start session.handler.nonceMask session.handler.nonceFixed)
            (Set.Iio (2 ^ b))
            {m | m &&& ~~~session.handler.nonceMask = session.handler.nonceFixed})
      ∧ ∀ job ∈ session.jobs, ∃ b, NonceConfig job.nonceMask job.nonceFixed b
        ∧ ∀ computeRank id, ∀ s ∈ job.state computeRank id, ∀ start,
          Set.BijOn (fun i => s.applyExtranonce (start + BitVec.ofNat 64 i)) (Set.Iio (2 ^ b))
            {m | m &&& ~~~job.nonceMask = job.nonceFixed})
    ∧ (∀ s nonceBase batchSize, batchNonces s nonceBase batchSize
        = (counters nonceBase batchSize).map s.applyExtranonce)
    ∧ (∀ (ι : Type) [DecidableEq ι] (cfg : Config ι) (w : ι) m₀ tr m, StratumMiner.Initial m₀ →
        (StratumMiner.machine cfg).Steps m₀ tr m →
        (∃ n, tr.flatMap (StratumMiner.evaluated cfg w) = counters (m₀.workers w).nonce n
          ∧ ((m.workers w).nonce = (m₀.workers w).nonce + BitVec.ofNat 64 n
            ∨ cfg.gpu w = false
              ∧ (m.workers w).nonce + 1 = (m₀.workers w).nonce + BitVec.ofNat 64 n))
        ∧ ∀ t i nonce, (t, StratumMiner.Event.hash w i nonce) ∈ tr →
          nonce = i.value.applyExtranonce (t.workers w).nonce)
    ∧ ∀ cfg s₀ tr s, Devfund.Initial s₀ → (Devfund.machine cfg).Steps s₀ tr s →
        ∃ n, tr.flatMap (Devfund.evaluated cfg) = counters s₀.nonce n
          ∧ s.nonce = s₀.nonce + BitVec.ofNat 64 n := by
  refine ⟨fun lines session hlines h => ?_, batchNonces_counters, ?_, ?_⟩
  · obtain ⟨⟨b, hhandler⟩, hjobs⟩ := nonceConfig_of_lines hserde h hlines
    refine ⟨⟨b, hhandler, mask_bijOn hhandler⟩, fun job hjob => ?_⟩
    obtain ⟨b, hb⟩ := hjobs job hjob
    exact ⟨b, hb, fun computeRank id s hs => job_state_bijOn hb hs⟩
  -- a pool worker: its run enumerates from where its counter started
  · intro ι _ cfg w m₀ tr m hinit h
    have hstart : StratumMiner.NextCounter (cfg.gpu w) (m₀.workers w) (m₀.workers w).nonce := by
      rw [StratumMiner.NextCounter, hinit.worker_eq w]
    obtain ⟨n, htr, hnext⟩ := h.enumerates
      (P := fun m c => StratumMiner.NextCounter (cfg.gpu w) (m.workers w) c)
      (fun _ _ _ _ hc hst => StratumMiner.nextCounter_step hc hst) hstart
    refine ⟨⟨n, htr, ?_⟩, fun t i nonce hmem => ?_⟩
    · obtain hcases | ⟨hcpu, hcases⟩ := hnext.cases
      · exact Or.inl hcases.symm
      · exact Or.inr ⟨hcpu, hcases.symm⟩
    -- a hash is of the nonce that the counter of its state gives
    · obtain ⟨pre, post, rfl⟩ := List.append_of_mem hmem
      obtain ⟨-, u, hst, -⟩ := h.split_cons
      cases hst with
      | hashOffered w i nonce pow hcpu hpc hstate hnonce hoffer => exact hnonce
      | hashRejected w i nonce hcpu hpc hstate hnonce hoffer => exact hnonce
  · intro cfg s₀ tr s _ h
    exact h.enumerates (P := fun s c => s.nonce = c)
      (fun _ _ _ _ hc hst => Devfund.nextCounter_step hc hst) rfl

/-- The parser on one line with an extranonce. -/
def extranonceSerde : SerdeJson where
  fromStr := fun line =>
    if line = setExtranonceLine then
      .ok (.object [("method".toList, .string "set_extranonce".toList),
        ("params".toList, .array [.string "fe93".toList, .number (.posInt 6)])])
    else .error "expected value".toList
  display := fun _ => []

theorem extranonceSerde_stringsWithin : extranonceSerde.StringsWithin := by
  intro line value s hline hmentions
  simp only [extranonceSerde] at hline
  split at hline
  case isFalse => cases hline
  case isTrue heq =>
    obtain rfl := Except.ok.inj hline
    have hs : s = "set_extranonce".toList ∨ s = "fe93".toList := by
      cases hmentions with
      | object hv h =>
        simp only [List.mem_cons, Prod.mk.injEq, List.not_mem_nil, or_false] at hv
        obtain ⟨-, rfl⟩ | ⟨-, rfl⟩ := hv
        · cases h
          exact Or.inl rfl
        · cases h with
          | array hx h =>
            simp only [List.mem_cons, List.not_mem_nil, or_false] at hx
            obtain rfl | rfl := hx
            · cases h
              exact Or.inr rfl
            · cases h
    obtain rfl | rfl := hs <;> rw [heq] <;> decide

/-- After an extranonce with two fixed bytes the other six are covered. -/
theorem two_bytes_fixed_covered :
    ∃ b, NonceConfig 0x0000ffffffffffff 0xfe93000000000000 b
      ∧ ∀ start, Set.BijOn (prepareJobsNonce start 0x0000ffffffffffff 0xfe93000000000000)
          (Set.Iio (2 ^ b)) {m : U64 | m &&& ~~~0x0000ffffffffffff = 0xfe93000000000000} := by
  have hline : len setExtranonceLine < 2 ^ 28 := by decide
  exact ((nonce_space_covered extranonceSerde extranonceSerde_stringsWithin false).1
    [setExtranonceLine] ⟨⟨none, 0x0000ffffffffffff, 0xfe93000000000000⟩, []⟩
    (fun line h => List.mem_singleton.mp h ▸ hline)
    (.line (r := .ok ()) .connect (by simp) (by decide +kernel))).1
