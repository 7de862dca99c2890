/-
Which lines crash the stratum client.

The handler slices strings at byte offsets that it has checked against byte
lengths, or padded by characters, and shifts by a size the pool announces.
`Crashes` describes the messages on which that goes wrong in a build with
overflow checks; `handleLine_returns_iff` says that there are no others.

* `CutsChar` — reading a text two bytes at a time runs into a character that
  is not ASCII, after nothing but hexadecimal pairs;
* `ExtranonceCrashes` — the sizes of an extranonce overflow, or fill the nonce;
* `handleLine_of_panic` — a crash delivers no job.
-/
import VelkarMiner.Stratum

open Bytes Rust

/-! ### Pairs of hexadecimal digits -/

/-- Two characters `u8::from_str_radix` reads; a plus sign may lead. -/
def IsPair (a b : Char) : Prop := ∃ n, fromStrRadix 8 16 [a, b] = .ok n

/-- The text begins with `n` pairs. -/
def AllPairs : ℕ → Str → Prop
  | 0, _ => True
  | _ + 1, [] => False
  | _ + 1, [_] => False
  | n + 1, a :: b :: s => a.utf8Size = 1 ∧ b.utf8Size = 1 ∧ IsPair a b ∧ AllPairs n s

/-- Reading `n` pairs of bytes gets to a place where the next two bytes are not whole
characters of the text, with pairs all the way up to it. -/
def CutsChar : ℕ → Str → Prop
  | 0, _ => False
  | _ + 1, [] => True
  | _ + 1, [a] => a.utf8Size ≠ 2
  | n + 1, a :: b :: s =>
    if a.utf8Size = 1 then b.utf8Size = 1 → IsPair a b ∧ CutsChar n s else a.utf8Size ≠ 2

theorem utf8Size_pos (c : Char) : 0 < c.utf8Size := Char.utf8Size_pos c

theorem length_le_len (s : Str) : s.length ≤ len s := by
  induction s with
  | nil => rfl
  | cons c s ih =>
    have := utf8Size_pos c
    rw [len_cons, List.length_cons]
    omega

theorem splitAtByte_cons {c : Char} (s : Str) {i : ℕ} (h : c.utf8Size ≤ i) :
    splitAtByte (c :: s) i = (splitAtByte s (i - c.utf8Size)).map fun r => (c :: r.1, r.2) := by
  have := utf8Size_pos c
  obtain ⟨i, rfl⟩ : ∃ k, i = k + 1 := ⟨i - 1, by omega⟩
  rw [splitAtByte, if_pos h]

theorem splitAtByte_cons_none {c : Char} (s : Str) {i : ℕ} (h₀ : 0 < i) (h : i < c.utf8Size) :
    splitAtByte (c :: s) i = none := by
  obtain ⟨i, rfl⟩ : ∃ k, i = k + 1 := ⟨i - 1, by omega⟩
  rw [splitAtByte, if_neg (by omega)]

theorem splitAtByte_zero (s : Str) : splitAtByte s 0 = some ([], s) := by
  cases s <;> rfl

/-- A split at a byte index is a split into two texts. -/
theorem splitAtByte_eq_some {s a b : Str} {i : ℕ} :
    splitAtByte s i = some (a, b) ↔ s = a ++ b ∧ len a = i := by
  induction s generalizing a b i with
  | nil =>
    cases i with
    | zero =>
      simp only [splitAtByte, Option.some.injEq, Prod.mk.injEq]
      constructor
      · rintro ⟨rfl, rfl⟩
        exact ⟨rfl, rfl⟩
      · rintro ⟨hs, -⟩
        obtain ⟨rfl, rfl⟩ := List.append_eq_nil_iff.mp hs.symm
        exact ⟨rfl, rfl⟩
    | succ i =>
      simp only [splitAtByte, reduceCtorEq, false_iff]
      rintro ⟨hs, hi⟩
      obtain ⟨rfl, rfl⟩ := List.append_eq_nil_iff.mp hs.symm
      cases hi
  | cons c s ih =>
    have hpos := utf8Size_pos c
    -- the index is at the front, inside the first character, or behind it
    obtain rfl | hi₀ := Nat.eq_zero_or_pos i
    · rw [splitAtByte_zero]
      constructor
      · intro h
        obtain ⟨rfl, rfl⟩ := Prod.mk.inj (Option.some.inj h)
        exact ⟨rfl, rfl⟩
      · rintro ⟨hs, hlen⟩
        cases a with
        | nil => rw [hs]; rfl
        | cons d a =>
          have := utf8Size_pos d
          rw [len_cons] at hlen
          omega
    obtain hi | hi := lt_or_ge i c.utf8Size
    · rw [splitAtByte_cons_none s hi₀ hi]
      refine iff_of_false (by simp) ?_
      rintro ⟨hs, hlen⟩
      cases a with
      | nil =>
        rw [len_nil] at hlen
        omega
      | cons d a =>
        obtain ⟨rfl, -⟩ := List.cons.inj hs
        rw [len_cons] at hlen
        omega
    · rw [splitAtByte_cons s hi, Option.map_eq_some_iff]
      constructor
      · rintro ⟨r, hr, heq⟩
        obtain ⟨rfl, rfl⟩ := Prod.mk.inj heq
        obtain ⟨rfl, hlen⟩ := ih.mp hr
        refine ⟨rfl, ?_⟩
        rw [len_cons, hlen]
        omega
      · rintro ⟨hs, hlen⟩
        cases a with
        | nil =>
          rw [len_nil] at hlen
          omega
        | cons d a =>
          obtain ⟨rfl, rfl⟩ := List.cons.inj hs
          rw [len_cons] at hlen
          exact ⟨(a, b), ih.mpr ⟨rfl, by omega⟩, rfl⟩

/-- A slice behind two ASCII characters. -/
theorem slice_cons_cons {ε : Type} {a b : Char} (ha : a.utf8Size = 1) (hb : b.utf8Size = 1)
    (s : Str) (i j : ℕ) :
    (slice (a :: b :: s) (i + 2) (j + 2) : Outcome ε Str) = slice s i j := by
  have : splitAtByte (a :: b :: s) (i + 2)
      = (splitAtByte s i).map fun r => (a :: b :: r.1, r.2) := by
    rw [splitAtByte_cons _ (by omega), splitAtByte_cons _ (by omega), ha, hb, Option.map_map]
    rfl
  rw [slice, slice, this, show j + 2 - (i + 2) = j - i by omega]
  cases splitAtByte s i <;> rfl

theorem hexPair_cons_cons {a b : Char} (ha : a.utf8Size = 1) (hb : b.utf8Size = 1) (s : Str)
    (i : ℕ) : hexPair (a :: b :: s) (i + 1) = hexPair s i := by
  rw [hexPair, hexPair, show 2 * (i + 1) = 2 * i + 2 by ring, slice_cons_cons ha hb]

theorem hexPairs_succ (n : ℕ) (s : Str) :
    hexPairs (n + 1) s
      = hexPair s 0 >>= fun b => ((List.range n).mapM fun i => hexPair s (i + 1)) >>= fun bs =>
          pure (b :: bs) := by
  rw [hexPairs, List.range_succ_eq_map, List.mapM_cons, List.mapM_map]
  rfl

/-- The first pair is the first two bytes, when they are whole characters. -/
theorem hexPair_zero (s : Str) :
    hexPair s 0 = slice s 0 2 >>= fun pair =>
      Outcome.ofExcept .parseInt (fromStrRadix 8 16 pair) >>= fun byte =>
        pure (BitVec.ofNat 8 byte) := rfl

theorem slice_zero {ε : Type} (s : Str) (j : ℕ) :
    (slice s 0 j : Outcome ε Str) = (splitAtByte s j).elim .panic fun r => .ok r.1 := by
  rw [slice, splitAtByte_zero]
  simp only [Nat.sub_zero]
  cases splitAtByte s j <;> rfl

theorem fromStrRadix_singleton_error {a : Char} (h : a.utf8Size ≠ 1) (w radix : ℕ) :
    fromStrRadix w radix [a] = .error .invalidDigit := by
  unfold fromStrRadix
  split
  · rename_i heq
    cases heq
  · rfl
  · next s hs heq =>
    have : a = '+' := by simpa using congrArg List.head? heq
    exact absurd rfl (this ▸ h)
  · rw [parseDigits, toDigit_eq_none h]

/-- How the first pair of bytes is read. -/
theorem hexPair_zero_nil : hexPair [] 0 = .panic := rfl

theorem hexPair_zero_wide {a : Char} (h : a.utf8Size = 2) (s : Str) :
    hexPair (a :: s) 0 = .err (.parseInt .invalidDigit) := by
  rw [hexPair_zero, slice_zero, splitAtByte_cons s (by omega), h, splitAtByte_zero]
  simp only [Option.map_some, Option.elim, Outcome.ok_bind]
  rw [fromStrRadix_singleton_error (by omega)]
  rfl

theorem hexPair_zero_wider {a : Char} (h : 2 < a.utf8Size) (s : Str) :
    hexPair (a :: s) 0 = .panic := by
  rw [hexPair_zero, slice_zero, splitAtByte_cons_none s (by omega) h]
  rfl

theorem hexPair_zero_short {a : Char} (h : a.utf8Size = 1) : hexPair [a] 0 = .panic := by
  rw [hexPair_zero, slice_zero, splitAtByte_cons [] (by omega), h]
  rfl

theorem hexPair_zero_cut {a b : Char} (ha : a.utf8Size = 1) (hb : b.utf8Size ≠ 1) (s : Str) :
    hexPair (a :: b :: s) 0 = .panic := by
  have := utf8Size_pos b
  rw [hexPair_zero, slice_zero, splitAtByte_cons _ (by omega), ha,
    splitAtByte_cons_none s (by omega) (by omega)]
  rfl

theorem hexPair_zero_pair {a b : Char} (ha : a.utf8Size = 1) (hb : b.utf8Size = 1) (s : Str) :
    hexPair (a :: b :: s) 0 = Outcome.ofExcept .parseInt (fromStrRadix 8 16 [a, b]) >>= fun byte =>
      pure (BitVec.ofNat 8 byte) := by
  rw [hexPair_zero, slice_zero, splitAtByte_cons _ (by omega), ha, splitAtByte_cons _ (by omega),
    hb, splitAtByte_zero]
  rfl

/-- Two whole characters of one byte each: the pair is read, and the rest goes on alike. -/
theorem hexPairs_cons_cons {a b : Char} (ha : a.utf8Size = 1) (hb : b.utf8Size = 1) (n : ℕ)
    (s : Str) :
    hexPairs (n + 1) (a :: b :: s)
      = Outcome.ofExcept .parseInt (fromStrRadix 8 16 [a, b]) >>= fun byte =>
          hexPairs n s >>= fun bytes => pure (BitVec.ofNat 8 byte :: bytes) := by
  rw [hexPairs_succ, hexPair_zero_pair ha hb, bind_assoc]
  simp only [hexPair_cons_cons ha hb, pure_bind]
  rfl

theorem hexPairs_spec (n : ℕ) (s : Str) :
    (hexPairs n s = .panic ↔ CutsChar n s)
      ∧ ((∃ bytes, hexPairs n s = .ok bytes) ↔ AllPairs n s) := by
  induction n generalizing s with
  | zero => simp [hexPairs, CutsChar, AllPairs]
  | succ n ih =>
    rcases s with _ | ⟨a, _ | ⟨b, s⟩⟩
    · simp [hexPairs_succ, hexPair_zero_nil, CutsChar, AllPairs]
    · rw [hexPairs_succ, CutsChar, AllPairs]
      have := utf8Size_pos a
      rcases (by omega : a.utf8Size = 1 ∨ a.utf8Size = 2 ∨ 2 < a.utf8Size) with h | h | h
      · simp [hexPair_zero_short h, h]
      · simp [hexPair_zero_wide h, h]
      · simp [hexPair_zero_wider h]
        omega
    · rw [CutsChar, AllPairs]
      have := utf8Size_pos a
      rcases (by omega : a.utf8Size = 1 ∨ a.utf8Size = 2 ∨ 2 < a.utf8Size) with h | h | h
      · by_cases hb : b.utf8Size = 1
        · rw [hexPairs_cons_cons h hb, ← (ih s).1, ← (ih s).2, IsPair]
          cases fromStrRadix 8 16 [a, b] with
          | error e => simp [Outcome.ofExcept, h, hb]
          | ok v =>
            simp only [Outcome.ofExcept, Outcome.ok_bind, h, hb]
            cases hexPairs n s <;> simp
        · rw [hexPairs_succ, hexPair_zero_cut h hb]
          simp [h, hb]
      · rw [hexPairs_succ, hexPair_zero_wide h]
        simp [h]
      · rw [hexPairs_succ, hexPair_zero_wider h, if_neg (by omega)]
        simp
        omega

theorem hexPairs_panics_iff (n : ℕ) (s : Str) : hexPairs n s = .panic ↔ CutsChar n s :=
  (hexPairs_spec n s).1

theorem hexPairs_reads_iff (n : ℕ) (s : Str) : (∃ bytes, hexPairs n s = .ok bytes) ↔ AllPairs n s :=
  (hexPairs_spec n s).2

/-! ### Targets -/

/-- The padded digits of a target that is read at all. -/
def TargetDigits (value : Option Value) (digits : Str) : Prop :=
  ∃ text, value.bind Value.asStr = some text ∧ strip0x (trim text) ≠ []
    ∧ len (strip0x (trim text)) ≤ 64 ∧ digits = pad64 (strip0x (trim text))

/-- The target is a text that cuts a character. -/
def TargetCuts (value : Option Value) : Prop :=
  ∃ digits, TargetDigits value digits ∧ CutsChar 32 digits

/-- The target is a text of pairs. -/
def TargetReads (value : Option Value) : Prop :=
  ∃ digits, TargetDigits value digits ∧ AllPairs 32 digits

theorem parseTargetHex_cases (value : Option Value) :
    (parseTargetHex value = .ok none ∧ ∀ digits, ¬ TargetDigits value digits)
      ∨ ∃ digits, TargetDigits value digits ∧ (∀ d, TargetDigits value d → d = digits)
        ∧ parseTargetHex value = match hexPairs 32 digits with
          | .ok bytes => .ok (some (Uint256.fromLeBytes
              (Vector.ofFn fun i => bytes.getD (31 - i.val) 0)))
          | .err _ => .ok none
          | .panic => .panic := by
  unfold parseTargetHex TargetDigits
  cases value.bind Value.asStr with
  | none => simp
  | some text =>
    simp only
    split
    case isTrue h =>
      left
      refine ⟨rfl, ?_⟩
      rintro digits ⟨t, ht, hne, hlen, -⟩
      obtain rfl : text = t := by simpa using ht
      rcases h with h | h
      · exact hne h
      · omega
    case isFalse h =>
      rw [not_or, not_lt] at h
      right
      refine ⟨_, ⟨text, rfl, h.1, h.2, rfl⟩, ?_, rfl⟩
      rintro d ⟨t, ht, -, -, rfl⟩
      obtain rfl : text = t := by simpa using ht
      rfl

theorem parseTargetHex_panics_iff (value : Option Value) :
    parseTargetHex value = .panic ↔ TargetCuts value := by
  rcases parseTargetHex_cases value with ⟨h, hno⟩ | ⟨digits, hd, huniq, h⟩
  · simp [h, TargetCuts, hno]
  · have : TargetCuts value ↔ CutsChar 32 digits :=
      ⟨fun ⟨d, hd', hc⟩ => huniq d hd' ▸ hc, fun hc => ⟨digits, hd, hc⟩⟩
    rw [h, this, ← hexPairs_panics_iff]
    cases hexPairs 32 digits <;> simp

theorem parseTargetHex_reads_iff (value : Option Value) :
    (∃ target, parseTargetHex value = .ok (some target)) ↔ TargetReads value := by
  rcases parseTargetHex_cases value with ⟨h, hno⟩ | ⟨digits, hd, huniq, h⟩
  · simp [h, TargetReads, hno]
  · have : TargetReads value ↔ AllPairs 32 digits :=
      ⟨fun ⟨d, hd', hc⟩ => huniq d hd' ▸ hc, fun hc => ⟨digits, hd, hc⟩⟩
    rw [h, this, ← hexPairs_reads_iff]
    cases hexPairs 32 digits <;> simp

/-- The two targets at `i` and `i + 1` crash the handler. -/
def TargetsCrash (params : List Value) (i : ℕ) : Prop :=
  TargetCuts params[i]? ∨ TargetReads params[i]? ∧ TargetCuts params[i + 1]?

theorem jobTargets_panics_iff (params : List Value) (i : ℕ) (prePowHash : Uint256)
    (timestamp : U64) :
    jobTargets params i prePowHash timestamp = .panic ↔ TargetsCrash params i := by
  rw [jobTargets, TargetsCrash, ← parseTargetHex_panics_iff, ← parseTargetHex_reads_iff,
    ← parseTargetHex_panics_iff]
  cases parseTargetHex params[i]? with
  | err e => simp
  | panic => simp
  | ok target =>
    cases target with
    | none => simp
    | some target => cases parseTargetHex params[i + 1]? <;> simp

/-! ### Jobs -/

/-- The string form: the text is not cut at bytes 64 and 80, or the hash in it cuts
a character, or everything in it is read and a target crashes. -/
def LargeJobCrashes (params : List Value) (largeJob : Str) : Prop :=
  80 ≤ len largeJob ∧
    match splitAtByte largeJob 64 with
    | none => True
    | some (hashHex, rest) =>
      match splitAtByte rest 16 with
      | none => True
      | some (tsHex, _) =>
        CutsChar 32 hashHex
          ∨ AllPairs 32 hashHex ∧ (∃ ts, fromStrRadix 64 16 tsHex = .ok ts) ∧ TargetsCrash params 2

/-- The array form: four integers and a timestamp, and a target that crashes. -/
def WordsCrash (params words : List Value) : Prop :=
  words.length = 4 ∧ (∀ word ∈ words, word.asU64.isSome)
    ∧ (params[2]?.bind Value.asI64).isSome ∧ TargetsCrash params 3

def JobCrashes (params : List Value) : Prop :=
  match params[1]?.bind Value.asArray with
  | some words => WordsCrash params words
  | none =>
    match params[1]?.bind Value.asStr with
    | some largeJob => LargeJobCrashes params largeJob
    | none => False

theorem jobWords_cases (words : List Value) :
    (∃ hash, jobWords words = .ok hash) ∧ (∀ word ∈ words, word.asU64.isSome)
      ∨ (∃ e, jobWords words = .err e) ∧ ¬ ∀ word ∈ words, word.asU64.isSome := by
  have hmap : (∃ ws, words.mapM jobWord = .ok ws) ∧ (∀ word ∈ words, word.asU64.isSome)
      ∨ (∃ e, words.mapM jobWord = .err e) ∧ ¬ ∀ word ∈ words, word.asU64.isSome := by
    induction words with
    | nil => simp
    | cons word words ih =>
      rw [List.mapM_cons, jobWord]
      cases hw : word.asU64 with
      | none => simp [hw]
      | some w =>
        rcases ih with ⟨⟨ws, hws⟩, hall⟩ | ⟨⟨e, he⟩, hall⟩
        · left
          exact ⟨⟨w :: ws, by simp [hws]⟩, by simpa [hw] using hall⟩
        · right
          exact ⟨⟨e, by simp [he]⟩, fun h => hall fun v hv => h v (List.mem_cons_of_mem _ hv)⟩
  rw [jobWords]
  rcases hmap with ⟨⟨ws, hws⟩, hall⟩ | ⟨⟨e, he⟩, hall⟩
  · exact Or.inl ⟨⟨_, by rw [hws]; rfl⟩, hall⟩
  · exact Or.inr ⟨⟨e, by rw [he]; rfl⟩, hall⟩

theorem largeJobHash_cases (largeJob : Str) :
    (splitAtByte largeJob 64 = none ∧ largeJobHash largeJob = .panic)
      ∨ ∃ hashHex rest, splitAtByte largeJob 64 = some (hashHex, rest)
        ∧ (splitAtByte rest 16 = none ∧ largeJobHash largeJob = .panic
          ∨ ∃ tsHex tail, splitAtByte rest 16 = some (tsHex, tail)
            ∧ largeJobHash largeJob = hexPairs 32 hashHex >>= fun bytes =>
                Outcome.ofExcept .parseInt (fromStrRadix 64 16 tsHex) >>= fun ts =>
                  pure (Uint256.fromLeBytes (Vector.ofFn fun i => bytes.getD i.val 0),
                    BitVec.ofNat 64 ts)) := by
  rw [largeJobHash, slice_zero, slice]
  cases h : splitAtByte largeJob 64 with
  | none => exact Or.inl ⟨rfl, rfl⟩
  | some r =>
    refine Or.inr ⟨r.1, r.2, rfl, ?_⟩
    simp only [Option.elim, Outcome.ok_bind]
    cases h' : splitAtByte r.2 16 with
    | none => exact Or.inl ⟨rfl, rfl⟩
    | some r' => exact Or.inr ⟨r'.1, r'.2, rfl, rfl⟩

theorem jobPayload_panics_iff (params : List Value) :
    jobPayload params = .panic ↔ JobCrashes params := by
  rw [jobPayload, JobCrashes]
  cases params[1]?.bind Value.asArray with
  -- four words: only the targets can panic
  | some words =>
    simp only [WordsCrash]
    split
    case isTrue h => simp [h]
    case isFalse h =>
      rw [not_ne_iff] at h
      rcases jobWords_cases words with ⟨⟨hash, hok⟩, hall⟩ | ⟨⟨e, he⟩, hall⟩
      · rw [hok]
        cases params[2]?.bind Value.asI64 with
        | none => simp
        | some ts =>
          rw [iff_true_intro hall]
          simpa [h] using jobTargets_panics_iff params 3 hash ts
      · rw [he]
        simp [hall]
  -- one string: its slices and its digit pairs as well
  | none =>
    cases params[1]?.bind Value.asStr with
    | none => simp
    | some largeJob =>
      simp only [LargeJobCrashes]
      split
      case isTrue h => simp [show ¬ 80 ≤ len largeJob by omega]
      case isFalse h =>
        rw [not_lt] at h
        rcases largeJobHash_cases largeJob with
          ⟨hsplit, hjob⟩ | ⟨hashHex, rest, hsplit, ⟨hsplit', hjob⟩ | ⟨tsHex, tail, hsplit', hjob⟩⟩
        · simp [h, hjob, hsplit]
        · simp [h, hjob, hsplit, hsplit']
        · simp only [h, hjob, hsplit, hsplit', true_and, ← hexPairs_panics_iff,
            ← hexPairs_reads_iff]
          cases hexPairs 32 hashHex with
          | err e => simp
          | panic => simp
          | ok bytes =>
            cases fromStrRadix 64 16 tsHex with
            | error e => simp [Outcome.ofExcept]
            | ok ts => simpa [Outcome.ofExcept] using jobTargets_panics_iff params 2 _ _

/-! ### Extranonces -/

/-- The digits behind the prefixes are read, and the width of the extranonce overflows
`u32`, or there is none and the second part takes all of the nonce. -/
def ExtranonceCrashes (extranonce : Str) (nonceSize : U32) : Prop :=
  let digits := trimStart0x extranonce
  nonceSize.toNat ≤ 8 ∧ (digits = [] ∨ ∃ fixed, fromStrRadix 64 16 digits = .ok fixed)
    ∧ (2 ^ 32 ≤ 4 * (len digits % 2 ^ 32) + 8 * nonceSize.toNat
      ∨ nonceSize.toNat = 8 ∧ len digits % 2 ^ 32 = 0)

theorem extranonceValue_cases (digits : Str) :
    (∃ fixed, extranonceValue digits = .ok fixed)
        ∧ (digits = [] ∨ ∃ fixed, fromStrRadix 64 16 digits = .ok fixed)
      ∨ (∃ e, extranonceValue digits = .err e)
        ∧ ¬ (digits = [] ∨ ∃ fixed, fromStrRadix 64 16 digits = .ok fixed) := by
  rw [extranonceValue]
  split
  case isTrue h => exact Or.inl ⟨⟨0, rfl⟩, Or.inl h⟩
  case isFalse h =>
    cases hr : fromStrRadix 64 16 digits with
    | ok fixed => exact Or.inl ⟨⟨fixed, rfl⟩, Or.inr ⟨fixed, rfl⟩⟩
    | error k => exact Or.inr ⟨⟨.parseInt k, rfl⟩, by simp [h]⟩

/-- With overflow checks the width is exact. -/
theorem extranonceBits_checked (digits : Str) (freeBits : ℕ) :
    extranonceBits true digits freeBits
      = if 4 * (len digits % 2 ^ 32) + freeBits < 2 ^ 32
        then .ok (4 * (len digits % 2 ^ 32) + freeBits) else .panic := by
  rw [extranonceBits]
  generalize len digits % 2 ^ 32 = length
  rw [mulU32, Nat.mul_comm]
  by_cases hmul : 4 * length < 2 ^ 32
  · rw [if_pos hmul, Outcome.ok_bind, addU32]
    rfl
  · rw [if_neg hmul, if_pos rfl, if_neg (by omega)]
    rfl

theorem setExtranonce_panics_iff (extranonce : Str) (nonceSize : U32) (session : Session) :
    (setExtranonce true extranonce nonceSize session).1 = .panic
      ↔ ExtranonceCrashes extranonce nonceSize := by
  rw [ExtranonceCrashes]
  rcases lt_or_ge 8 nonceSize.toNat with hsize | hsize
  · obtain ⟨e, he⟩ := setExtranonce_large true extranonce hsize session
    rw [he]
    exact iff_of_false (by simp) (by omega)
  rw [setExtranonce_small true extranonce hsize, Method.lift_bind_run, and_iff_right hsize]
  rcases extranonceValue_cases (trimStart0x extranonce) with
    ⟨⟨fixed, hfixed⟩, hread⟩ | ⟨⟨e, he⟩, hread⟩
  case inr =>
    rw [he]
    exact iff_of_false (by simp) (fun h => hread h.1)
  rw [hfixed, and_iff_right hread]
  simp only [Method.lift_bind_run]
  rw [extranonceBits_checked]
  generalize len (trimStart0x extranonce) % 2 ^ 32 = length
  by_cases hbits : 4 * length + nonceSize.toNat * 8 < 2 ^ 32
  case neg =>
    rw [if_neg hbits]
    exact iff_of_true rfl (by omega)
  rw [if_pos hbits]
  simp only [placeExtranonce]
  split
  case isTrue hsum => exact iff_of_false (by simp) (by omega)
  case isFalse hsum =>
    -- only the shift is left
    simp only [Method.modify_bind_run]
    by_cases hshift : nonceSize.toNat * 8 < 64
    · rw [shlU64, if_pos hshift]
      exact iff_of_false (by simp) (by omega)
    · rw [shlU64, if_neg hshift, if_pos rfl]
      exact iff_of_true rfl (by omega)

/-! ### Lines -/

/-- The parameters of `set_extranonce` are there and crash the handler. -/
def ExtranonceMethodCrashes (value : Value) : Prop :=
  ∃ params extranonce nonceSize, (value.get "params".toList).bind Value.asArray = some params
    ∧ params.head?.bind Value.asStr = some extranonce
    ∧ params[1]?.bind Value.asU64 = some nonceSize
    ∧ ExtranonceCrashes extranonce (nonceSize.setWidth 32)

/-- A job with a name, after a difficulty that converts, crashes the handler. -/
def NotifyCrashes (handler : StratumHandler) (value : Value) : Prop :=
  ∃ params jobId diff, (value.get "params".toList).bind Value.asArray = some params
    ∧ params.head?.bind Value.asStr = some jobId ∧ handler.currentDifficulty = some diff
    ∧ (u256FromStratumDifficultyStr diff).isSome ∧ JobCrashes params

/-- The result of a subscription holds an extranonce that crashes the handler. -/
def SubscribeCrashes (value : Value) : Prop :=
  ∃ result xs extranonce nonceSize, value.get "result".toList = some result
    ∧ result.asArray = some xs ∧ xs[1]?.bind Value.asStr = some extranonce
    ∧ xs[2]?.bind Value.asU64 = some nonceSize
    ∧ ExtranonceCrashes extranonce (nonceSize.setWidth 32)

/-- The messages on which the handler panics. -/
def Crashes (handler : StratumHandler) (value : Value) : Prop :=
  match (value.get "method".toList).bind Value.asStr with
  | some method =>
    (method = "set_extranonce".toList ∨ method = "mining.set_extranonce".toList)
        ∧ ExtranonceMethodCrashes value
      ∨ method = "mining.notify".toList ∧ NotifyCrashes handler value
  | none => (∀ e ∈ value.get "error".toList, e.isNull) ∧ SubscribeCrashes value

theorem extranonceMethod_panics_iff (value : Value) (session : Session) :
    (extranonceMethod true value session).1 = .panic ↔ ExtranonceMethodCrashes value := by
  rw [extranonceMethod, ExtranonceMethodCrashes]
  cases (value.get "params".toList).bind Value.asArray with
  | none => exact iff_of_false (by simp) (by simp)
  | some params =>
    cases he : params.head?.bind Value.asStr with
    | none => exact iff_of_false (by simp [he]) (by simp [he])
    | some extranonce =>
      cases hn : params[1]?.bind Value.asU64 with
      | none => exact iff_of_false (by simp [he, hn]) (by simp [hn])
      | some nonceSize =>
        simp only [Outcome.okOr_some, Method.lift_bind_run, he, hn]
        rw [setExtranonce_panics_iff]
        constructor
        · intro h
          exact ⟨params, extranonce, nonceSize, rfl, he, hn, h⟩
        · rintro ⟨params', extranonce', nonceSize', hp, he', hn', h⟩
          obtain rfl : params = params' := by simpa using hp
          obtain rfl : extranonce = extranonce' := by simpa [he] using he'
          obtain rfl : nonceSize = nonceSize' := by simpa [hn] using hn'
          exact h

theorem subscribeResult_panics_iff (result : Value) (session : Session) :
    (subscribeResult true result session).1 = .panic
      ↔ ∃ xs extranonce nonceSize, result.asArray = some xs
        ∧ xs[1]?.bind Value.asStr = some extranonce ∧ xs[2]?.bind Value.asU64 = some nonceSize
        ∧ ExtranonceCrashes extranonce (nonceSize.setWidth 32) := by
  rw [subscribeResult]
  cases result.asArray with
  | none => exact iff_of_false (by simp) (by simp)
  | some xs =>
    cases he : xs[1]?.bind Value.asStr with
    | none => exact iff_of_false (by simp [he]) (by simp [he])
    | some extranonce =>
      cases hn : xs[2]?.bind Value.asU64 with
      | none => exact iff_of_false (by simp [he, hn]) (by simp [hn])
      | some nonceSize =>
        simp only [he, hn]
        rw [setExtranonce_panics_iff]
        constructor
        · intro h
          exact ⟨xs, extranonce, nonceSize, rfl, he, hn, h⟩
        · rintro ⟨xs', extranonce', nonceSize', hp, he', hn', h⟩
          obtain rfl : xs = xs' := by simpa using hp
          obtain rfl : extranonce = extranonce' := by simpa [he] using he'
          obtain rfl : nonceSize = nonceSize' := by simpa [hn] using hn'
          exact h

theorem notify_panics_iff (value : Value) (session : Session) :
    (notify value session).1 = .panic ↔ NotifyCrashes session.handler value := by
  rw [notify, NotifyCrashes]
  cases (value.get "params".toList).bind Value.asArray with
  | none => exact iff_of_false (by simp) (by simp)
  | some params =>
    cases hj : params.head?.bind Value.asStr with
    | none => exact iff_of_false (by simp [hj]) (by simp [hj])
    | some jobId =>
      cases hd : session.handler.currentDifficulty with
      | none => exact iff_of_false (by simp [hj]) (by simp)
      | some diff =>
        cases ht : u256FromStratumDifficultyStr diff with
        | none => exact iff_of_false (by simp [hj, ht]) (by simp [ht])
        | some target =>
          have hparts : (∃ params' jobId' diff', some params = some params'
              ∧ params'.head?.bind Value.asStr = some jobId' ∧ some diff = some diff'
              ∧ (u256FromStratumDifficultyStr diff').isSome ∧ JobCrashes params')
              ↔ JobCrashes params := by
            constructor
            · rintro ⟨params', _, _, hp, -, -, -, h⟩
              obtain rfl : params = params' := by simpa using hp
              exact h
            · intro h
              exact ⟨params, jobId, diff, rfl, hj, rfl, by simp [ht], h⟩
          rw [hparts, ← jobPayload_panics_iff]
          simp only [hj, ht]
          rcases jobPayload params with (_ | payload) | e | _ <;> simp

theorem handleValue_panics_iff (serde : SerdeJson) (value : Value) (session : Session) :
    (handleValue serde true value session).1 = .panic ↔ Crashes session.handler value := by
  rw [handleValue, Crashes]
  cases (value.get "method".toList).bind Value.asStr with
  | some method =>
    simp only
    split
    case isTrue h =>
      subst h
      -- `mining.set_difficulty` never panics
      refine iff_of_false ?_ ?_
      · rw [setDifficulty]
        cases ((value.get "params".toList).bind Value.asArray).bind List.head? <;> simp
      · rintro (⟨hm | hm, -⟩ | ⟨hm, -⟩) <;> exact absurd hm (by decide)
    case isFalse =>
      split
      case isTrue h =>
        -- `set_extranonce`, under either of its names
        rw [extranonceMethod_panics_iff]
        constructor
        · intro hcrash
          exact Or.inl ⟨h, hcrash⟩
        · rintro (⟨-, hcrash⟩ | ⟨rfl, -⟩)
          · exact hcrash
          · exact absurd h (by decide)
      case isFalse h =>
        split
        case isTrue hm =>
          -- `mining.notify`
          rw [notify_panics_iff]
          constructor
          · intro hcrash
            exact Or.inr ⟨hm, hcrash⟩
          · rintro (⟨hm', -⟩ | ⟨-, hcrash⟩)
            · exact absurd hm' h
            · exact hcrash
        case isFalse hm =>
          refine iff_of_false (by simp) ?_
          rintro (⟨hm', -⟩ | ⟨hm', -⟩)
          · exact h hm'
          · exact hm hm'
  | none =>
    -- without a method it is a response: an error is logged, a result taken for the subscription
    have herror : ((value.get "error".toList).map fun e => !e.isNull).getD false = true
        ↔ ¬ ∀ e ∈ value.get "error".toList, e.isNull := by
      cases value.get "error".toList <;> simp
    simp only [herror]
    split
    case isTrue h => exact iff_of_false (by simp) (fun hcrash => h hcrash.1)
    case isFalse h =>
      rw [and_iff_right (not_not.mp h), SubscribeCrashes]
      cases value.get "result".toList with
      | none => exact iff_of_false (by simp) (by simp)
      | some result =>
        simp only [subscribeResult_panics_iff]
        constructor
        · rintro ⟨xs, extranonce, nonceSize, hcrash⟩
          exact ⟨result, xs, extranonce, nonceSize, rfl, hcrash⟩
        · rintro ⟨result', xs, extranonce, nonceSize, hresult, hcrash⟩
          obtain rfl : result = result' := by simpa using hresult
          exact ⟨xs, extranonce, nonceSize, hcrash⟩

/-- The lines on which the handler panics. -/
def LineCrashes (serde : SerdeJson) (handler : StratumHandler) (line : Str) : Prop :=
  ∃ value, serde.fromStr line = .ok value ∧ Crashes handler value

/-- A line is answered with `Ok` or `Err`, in a build with overflow checks, precisely
when it is not one of the crashing ones. -/
theorem handleLine_returns_iff (serde : SerdeJson) (session : Session) (line : Str) :
    (handleLine serde true line session).1 ≠ .panic ↔ ¬ LineCrashes serde session.handler line := by
  rw [handleLine, LineCrashes, not_iff_not]
  cases serde.fromStr line with
  | error e => exact iff_of_false (by simp [Outcome.ofExcept]) (by simp)
  | ok value =>
    simp only [Outcome.ofExcept, Method.lift_bind_run]
    rw [handleValue_panics_iff]
    simp

/-! ### What a crash leaves -/

/-- A method leaves a part of the state as it is, whatever its outcome. -/
def Rust.Method.Keeps {σ ε α β : Type} (P : σ → β) (m : Method σ ε α) : Prop :=
  ∀ s, P (m s).2 = P s

section Keeps

variable {σ ε α β γ : Type} {P : σ → β}

theorem keeps_pure (a : α) : Method.Keeps P (pure a : Method σ ε α) := fun _ => rfl

theorem keeps_lift (x : Outcome ε α) : Method.Keeps P (Method.lift x : Method σ ε α) := fun _ => rfl

theorem keeps_modify {f : σ → σ} (h : ∀ s, P (f s) = P s) :
    Method.Keeps P (Method.modify f : Method σ ε Unit) := h

theorem Rust.Method.Keeps.bind {m : Method σ ε α} {f : α → Method σ ε γ} (hm : Method.Keeps P m)
    (hf : ∀ a, Method.Keeps P (f a)) : Method.Keeps P (m >>= f) := by
  intro s
  have hs := hm s
  rw [Method.bind_run]
  split
  · next a t heq =>
    rw [heq] at hs
    exact (hf a t).trans hs
  all_goals
    next t heq =>
      rw [heq] at hs
      exact hs

end Keeps

theorem setExtranonce_keeps (checks : Bool) (extranonce : Str) (nonceSize : U32) :
    Method.Keeps Session.jobs (setExtranonce checks extranonce nonceSize) := by
  refine (keeps_lift _).bind fun freeBits => ?_
  split
  · exact keeps_lift _
  · refine (keeps_lift _).bind fun fixed => (keeps_lift _).bind fun bits => ?_
    rw [placeExtranonce]
    split
    · exact keeps_lift _
    · refine Method.Keeps.bind ?_ fun _ => (keeps_lift _).bind fun _ => ?_
      · exact keeps_modify fun _ => rfl
      · exact keeps_modify fun _ => rfl

theorem setDifficulty_keeps (serde : SerdeJson) (value : Value) :
    Method.Keeps Session.jobs (setDifficulty serde value) := by
  rw [setDifficulty]
  split
  · exact keeps_modify fun _ => rfl
  · exact keeps_pure ()

theorem extranonceMethod_keeps (checks : Bool) (value : Value) :
    Method.Keeps Session.jobs (extranonceMethod checks value) :=
  (keeps_lift _).bind fun _ => (keeps_lift _).bind fun _ => (keeps_lift _).bind fun _ =>
    setExtranonce_keeps _ _ _

theorem subscribeResult_keeps (checks : Bool) (result : Value) :
    Method.Keeps Session.jobs (subscribeResult checks result) := by
  rw [subscribeResult]
  split
  · exact keeps_pure ()
  · split
    · exact setExtranonce_keeps _ _ _
    · exact keeps_pure ()

theorem notify_of_panic {value : Value} {session : Session}
    (h : (notify value session).1 = .panic) : (notify value session).2 = session := by
  unfold notify at h ⊢
  split
  · rfl
  · split
    · split
      · rfl
      · split <;> simp_all
    · rfl

/-- A line on which the handler panics delivers no job. -/
theorem handleLine_of_panic {serde : SerdeJson} {checks : Bool} {line : Str} {session : Session}
    (h : (handleLine serde checks line session).1 = .panic) :
    (handleLine serde checks line session).2.jobs = session.jobs := by
  rw [handleLine, Method.lift_bind_run] at h ⊢
  cases hvalue : serde.fromStr line with
  | error e => rfl
  | ok value =>
    rw [hvalue] at h
    simp only [Outcome.ofExcept] at h ⊢
    rw [handleValue] at h ⊢
    cases hmethod : (value.get "method".toList).bind Value.asStr with
    | some method =>
      rw [hmethod] at h
      simp only at h ⊢
      split
      · exact setDifficulty_keeps _ _ _
      · split
        · exact extranonceMethod_keeps _ _ _
        · split
          · simp_all [notify_of_panic]
          · rfl
    | none =>
      simp only
      split
      · rfl
      · cases value.get "result".toList with
        | some result => exact subscribeResult_keeps _ _ _
        | none => rfl

/-! ### Two lines that crash -/

/-- An empty extranonce1 and an extranonce2 that is the whole nonce. -/
def extranonceLine : Str :=
  "\x7b\"method\":\"set_extranonce\",\"params\":[\"\",8]\x7d".toList

/-- A job text of 80 bytes in which byte 64 is the second one of a character. -/
def accentedJob : Str := List.replicate 63 '0' ++ 'é' :: List.replicate 15 '0'

def accentedLine : Str :=
  "\x7b\"method\":\"mining.notify\",\"params\":[\"1\",\"".toList ++ accentedJob
    ++ "\",\"1\",\"1\"]\x7d".toList

/-- The parser on the two lines. -/
def sampleSerde : SerdeJson where
  fromStr := fun line =>
    if line = extranonceLine then
      .ok (.object [("method".toList, .string "set_extranonce".toList),
        ("params".toList, .array [.string [], .number (.posInt 8)])])
    else if line = accentedLine then
      .ok (.object [("method".toList, .string "mining.notify".toList),
        ("params".toList, .array [.string "1".toList, .string accentedJob, .string "1".toList,
          .string "1".toList])])
    else .error "expected value".toList
  display := fun _ => []

/-- The first line panics where overflows are checked, the second one in every build. -/
theorem pool_lines_crash :
    (handleLine sampleSerde true extranonceLine ⟨StratumHandler.connect, []⟩).1 = .panic
      ∧ (handleLine sampleSerde true accentedLine ⟨⟨some "1".toList, 0, 0⟩, []⟩).1 = .panic
      ∧ (handleLine sampleSerde false accentedLine ⟨⟨some "1".toList, 0, 0⟩, []⟩).1 = .panic := by
  decide +kernel
