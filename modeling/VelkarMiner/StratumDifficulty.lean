/-
The difficulty that stays in force (`mining.set_difficulty` in `src/stratum.rs`).

The handler keeps the text of the last difficulty announced, whether it
converts to a target or not.  A number converts exactly when it is positive and
printed without an exponent (`converts_iff_plain`).  So an announced difficulty
stays usable over a history exactly when every positive number announced is
such a one, and nothing else is announced after the first of them
(`difficulty_stays_usable_iff`).
-/
import VelkarMiner.StratumHistory

open Bytes Rust

/-! ### Which texts convert -/

/-- The characters of a text that converts. -/
def NumeralChar (c : Char) : Prop :=
  isWhitespace c = true ∨ c = '.' ∨ c = '+' ∨ c = '_' ∨ (toDigit 10 c).isSome

instance (c : Char) : Decidable (NumeralChar c) :=
  inferInstanceAs (Decidable (_ ∨ _ ∨ _ ∨ _ ∨ _))

theorem mem_dropWhile_or {α : Type} {p : α → Bool} {xs : List α} {x : α} (h : x ∈ xs) :
    p x = true ∨ x ∈ xs.dropWhile p := by
  rw [← List.takeWhile_append_dropWhile (p := p) (l := xs)] at h
  exact (List.mem_append.mp h).imp_left List.mem_takeWhile_imp

theorem mem_trim_or {s : Str} {c : Char} (h : c ∈ s) : isWhitespace c = true ∨ c ∈ trim s := by
  obtain h | h := mem_dropWhile_or (p := isWhitespace) h
  · exact Or.inl h
  · rw [trim, List.mem_reverse]
    exact mem_dropWhile_or (List.mem_reverse.mpr h)

theorem mem_trimEndMatches_or {s : Str} {c d : Char} (h : c ∈ s) :
    c = d ∨ c ∈ trimEndMatches d s := by
  rw [trimEndMatches, List.mem_reverse]
  obtain h | h := mem_dropWhile_or (p := (· == d)) (List.mem_reverse.mpr h)
  · exact Or.inl (beq_iff_eq.mp h)
  · exact Or.inr h

theorem mem_stripPlus_or {s : Str} {c : Char} (h : c ∈ s) : c = '+' ∨ c ∈ stripPlus s := by
  unfold stripPlus
  split
  · split
    · exact Or.inr h
    · exact List.mem_cons.mp h
  · exact Or.inr h

theorem isSome_of_mapM {α β : Type} {f : α → Option β} {xs : List α} {ys : List β}
    (h : xs.mapM f = some ys) {x : α} (hx : x ∈ xs) : (f x).isSome := by
  induction xs generalizing ys with
  | nil => cases hx
  | cons a xs ih =>
    rw [List.mapM_cons] at h
    obtain ⟨b, hb, h⟩ := Option.bind_eq_some_iff.mp h
    obtain ⟨bs, hbs, -⟩ := Option.bind_eq_some_iff.mp h
    obtain rfl | hx := List.mem_cons.mp hx
    · rw [hb]
      rfl
    · exact ih hbs hx

theorem numeralChar_of_parsePart {s : Str} {n : ℕ} (h : parsePart s = some n) {c : Char}
    (hc : c ∈ s) : NumeralChar c := by
  rw [parsePart, if_neg (List.ne_nil_of_mem hc), parseBytes] at h
  obtain hplus | hc := mem_stripPlus_or hc
  · exact Or.inr (Or.inr (Or.inl hplus))
  split at h
  case isTrue => cases h
  case isFalse =>
    obtain ⟨ds, hds, -⟩ := Option.map_eq_some_iff.mp h
    obtain rfl | hne := eq_or_ne c '_'
    · exact Or.inr (Or.inr (Or.inr (Or.inl rfl)))
    · have hmem : c ∈ (stripPlus s).filter (· ≠ '_') := List.mem_filter.mpr ⟨hc, by simpa using hne⟩
      exact Or.inr (Or.inr (Or.inr (Or.inr (isSome_of_mapM hds hmem))))

theorem splitOnce_eq_some {c : Char} {s whole frac : Str}
    (h : splitOnce c s = some (whole, frac)) : s = whole ++ c :: frac := by
  induction s generalizing whole with
  | nil => cases h
  | cons a s ih =>
    rw [splitOnce] at h
    split at h
    case isTrue hac =>
      obtain ⟨rfl, rfl⟩ := Prod.mk.inj (Option.some.inj h)
      rw [hac]
      rfl
    case isFalse =>
      obtain ⟨⟨whole', frac'⟩, hrest, heq⟩ := Option.map_eq_some_iff.mp h
      obtain ⟨rfl, rfl⟩ := Prod.mk.inj heq
      rw [ih hrest]
      rfl

/-- Whatever the point splits off is a numeral, too. -/
theorem numeralChar_of_split {s : Str} {m n : ℕ} (hwhole : parsePart (splitDifficulty s).1 = some m)
    (hfrac : parsePart (splitDifficulty s).2.1 = some n) {c : Char} (hc : c ∈ s) :
    NumeralChar c := by
  rw [splitDifficulty] at hwhole hfrac
  cases hsplit : splitOnce '.' s with
  | none =>
    rw [hsplit] at hwhole
    exact numeralChar_of_parsePart hwhole hc
  | some r =>
    obtain ⟨whole, frac⟩ := r
    rw [hsplit] at hwhole hfrac
    rw [splitOnce_eq_some hsplit] at hc
    obtain hc | hc := List.mem_append.mp hc
    · refine numeralChar_of_parsePart (n := m) ?_ hc
      simp only at hwhole
      split at hwhole <;> exact hwhole
    obtain hdot | hc := List.mem_cons.mp hc
    · exact Or.inr (Or.inl hdot)
    obtain rfl | hc := mem_trimEndMatches_or (d := '0') hc
    · exact Or.inr (Or.inr (Or.inr (Or.inr (by decide))))
    · refine numeralChar_of_parsePart (n := n) ?_ hc
      simp only at hfrac
      rw [if_neg (List.ne_nil_of_mem hc)] at hfrac
      exact hfrac

theorem numeralChar_of_converts {s : Str} (h : (u256FromStratumDifficultyStr s).isSome) {c : Char}
    (hc : c ∈ s) : NumeralChar c := by
  obtain ⟨target, h⟩ := Option.isSome_iff_exists.mp h
  rw [u256FromStratumDifficultyStr] at h
  obtain hspace | hc := mem_trim_or hc
  · exact Or.inl hspace
  simp only at h
  split at h
  case isTrue => cases h
  case isFalse =>
    obtain ⟨m, hwhole, h⟩ := Option.bind_eq_some_iff.mp h
    obtain ⟨n, hfrac, -⟩ := Option.bind_eq_some_iff.mp h
    exact numeralChar_of_split hwhole hfrac hc

/-- One foreign character is enough to stop the conversion. -/
theorem not_converts_of_mem {s : Str} {c : Char} (hc : c ∈ s)
    (h : c ∈ "-e\"[\x7bntf".toList) : (u256FromStratumDifficultyStr s).isSome = false := by
  rw [Bool.eq_false_iff]
  intro hsome
  have hall : "-e\"[\x7bntf".toList.all (fun c => decide (¬ NumeralChar c)) = true := by decide
  exact of_decide_eq_true (List.all_eq_true.mp hall c h) (numeralChar_of_converts hsome hc)

/-! ### Numbers and how they are printed -/

/-- The decimal digits of `n`. -/
def fmtDec (n : ℕ) : Str := if n = 0 then ['0'] else (Nat.digits 10 n).reverse.map hexDigit

def fmtInt (n : ℤ) : Str := if n < 0 then '-' :: fmtDec n.natAbs else fmtDec n.natAbs

def f64Exponent (bits : U64) : ℕ := (bits >>> 52 &&& 0x7ff).toNat

def f64Finite (bits : U64) : Prop := f64Exponent bits ≠ 0x7ff

def f64Places : ℕ := 1074

/-- The magnitude of a finite double, in units of the smallest one, `2 ^ -f64Places`. -/
def f64Units (bits : U64) : ℕ :=
  let fraction := (bits &&& 0xfffffffffffff).toNat
  if f64Exponent bits = 0 then fraction else (2 ^ 52 + fraction) * 2 ^ (f64Exponent bits - 1)

/-- The distance to the next double, in the same units. -/
def f64Ulp (bits : U64) : ℕ := 2 ^ (f64Exponent bits - 1)

theorem f64Ulp_le_units {bits : U64} (h : 0 < f64Units bits) : f64Ulp bits ≤ f64Units bits := by
  rw [f64Units] at h ⊢
  rw [f64Ulp]
  split
  case isTrue hzero =>
    rw [if_pos hzero] at h
    rw [hzero]
    exact h
  case isFalse => exact Nat.le_mul_of_pos_left _ (by positivity)

def Number.Positive : Number → Prop
  | posInt n => 0 < n.toNat
  | negInt n => 0 < n.toInt
  | float bits => bits.msb = false ∧ 0 < f64Units bits

/-- A positive number that is printed without an exponent: an integer, or a double from
`1e-5` up to `1e16`. -/
def Number.Plain : Number → Prop
  | posInt n => 0 < n.toNat
  | negInt n => 0 < n.toInt
  | float bits => bits.msb = false ∧ 2 ^ f64Places ≤ 10 ^ 5 * f64Units bits
      ∧ f64Units bits < 10 ^ 16 * 2 ^ f64Places

namespace Value

def Positive (v : Value) : Prop := ∃ n, v = number n ∧ n.Positive

def Plain (v : Value) : Prop := ∃ n, v = number n ∧ n.Plain

theorem Plain.positive {v : Value} (h : v.Plain) : v.Positive := by
  obtain ⟨n, rfl, h⟩ := h
  refine ⟨n, rfl, ?_⟩
  cases n with
  | posInt n => exact h
  | negInt n => exact h
  | float bits =>
    obtain ⟨hsign, hlow, -⟩ := h
    have : 0 < 10 ^ 5 * f64Units bits := lt_of_lt_of_le (by positivity) hlow
    exact ⟨hsign, Nat.pos_of_mul_pos_left this⟩

end Value

/-- The first parameter of a `mining.set_difficulty`. -/
def announced (value : Value) : Option Value :=
  if method value = some "mining.set_difficulty".toList then (params value).bind List.head?
  else none

/-- The documented behaviour of the printer, and that a parsed number is finite. -/
structure SerdeJson.Displays (serde : SerdeJson) : Prop where
  posInt : ∀ n : U64, serde.display (.number (.posInt n)) = fmtInt n.toNat
  negInt : ∀ n : U64, serde.display (.number (.negInt n)) = fmtInt n.toInt
  /-- The digits read back as the double. -/
  decimal : ∀ bits, f64Finite bits → (Number.float bits).Plain → ∃ d : Decimal,
    serde.display (.number (.float bits)) = d.text
      ∧ |d.value * 2 ^ f64Places - f64Units bits| ≤ (f64Ulp bits : ℚ) / 2
  exponent : ∀ bits, f64Finite bits → (Number.float bits).Positive → ¬ (Number.float bits).Plain →
    'e' ∈ serde.display (.number (.float bits))
  zero : ∀ bits, bits.msb = false → f64Units bits = 0 →
    serde.display (.number (.float bits)) = "0.0".toList
  negative : ∀ bits, f64Finite bits → bits.msb = true →
    (serde.display (.number (.float bits))).head? = some '-'
  other : ∀ v, (∀ n, v ≠ .number n) → ∃ c ∈ "\"[\x7bntf".toList, (serde.display v).head? = some c
  finite : ∀ line value bits, serde.fromStr line = .ok value →
    announced value = some (.number (.float bits)) → f64Finite bits

/-! ### Which numbers convert -/

theorem toDigit_ten_hexDigit {d : ℕ} (h : d < 10) : toDigit 10 (hexDigit d) = some d := by
  have : ∀ d < 10, toDigit 10 (hexDigit d) = some d := by decide
  exact this d h

theorem allDigits_fmtDec (n : ℕ) : AllDigits 10 (fmtDec n) := by
  rw [fmtDec]
  split
  · intro c hc
    rw [List.mem_singleton.mp hc]
    decide
  · intro c hc
    obtain ⟨d, hd, rfl⟩ := List.mem_map.mp hc
    rw [toDigit_ten_hexDigit (Nat.digits_lt_base (by norm_num) (List.mem_reverse.mp hd))]
    rfl

theorem digitsValue_fmtDec (n : ℕ) : digitsValue 10 (fmtDec n) = n := by
  rw [fmtDec]
  split
  case isTrue h =>
    rw [h]
    decide
  case isFalse =>
    have hmap : ((Nat.digits 10 n).reverse.map hexDigit).map (fun c => (toDigit 10 c).getD 0)
        = (Nat.digits 10 n).reverse := by
      rw [List.map_map]
      refine (List.map_congr_left fun d hd => ?_).trans (List.map_id _)
      rw [Function.comp_apply,
        toDigit_ten_hexDigit (Nat.digits_lt_base (by norm_num) (List.mem_reverse.mp hd))]
      rfl
    rw [digitsValue, hmap, List.reverse_reverse, Nat.ofDigits_digits]

theorem fmtDec_ne_nil (n : ℕ) : fmtDec n ≠ [] := by
  rw [fmtDec]
  split
  · simp
  · next h => simpa [Nat.digits_eq_nil_iff_eq_zero] using h

/-- The numeral `fmtDec` writes. -/
def Decimal.ofNat (n : ℕ) : Decimal where
  whole := fmtDec n
  frac := none
  allDigits_whole := allDigits_fmtDec n
  allDigits_frac := by simp
  nonempty := Or.inl (fmtDec_ne_nil n)

theorem Decimal.value_ofNat (n : ℕ) : (Decimal.ofNat n).value = n := by
  rw [Decimal.value, Decimal.places]
  simp [Decimal.ofNat, digitsValue_fmtDec]

theorem Decimal.converts_iff (d : Decimal) :
    (u256FromStratumDifficultyStr d.text).isSome ↔ 0 < d.value := by
  rw [u256FromStratumDifficultyStr_text]
  obtain h | h := eq_or_ne d.value 0
  · rw [if_pos h, h]
    simp
  · rw [if_neg h]
    exact iff_of_true rfl (lt_of_le_of_ne d.value_nonneg h.symm)

theorem fmtInt_converts_iff (n : ℤ) :
    (u256FromStratumDifficultyStr (fmtInt n)).isSome ↔ 0 < n := by
  rw [fmtInt]
  split
  case isTrue hneg =>
    rw [not_converts_of_mem List.mem_cons_self (by decide)]
    exact iff_of_false (by simp) (by omega)
  case isFalse =>
    have h := (Decimal.ofNat n.natAbs).converts_iff
    rw [Decimal.value_ofNat] at h
    refine h.trans ?_
    rw [Nat.cast_pos]
    omega

/-- A positive double is printed as a positive numeral. -/
theorem Decimal.value_pos_of_near {d : Decimal} {bits : U64} (hpos : 0 < f64Units bits)
    (h : |d.value * 2 ^ f64Places - f64Units bits| ≤ (f64Ulp bits : ℚ) / 2) : 0 < d.value := by
  have hulp : (f64Ulp bits : ℚ) ≤ f64Units bits := by exact_mod_cast f64Ulp_le_units hpos
  have hunits : (0 : ℚ) < f64Units bits := by exact_mod_cast hpos
  have hscale : (0 : ℚ) < 2 ^ f64Places := by positivity
  generalize (2 : ℚ) ^ f64Places = scale at h hscale
  have hlow := (abs_le.mp h).1
  have : 0 < d.value * scale := by linarith
  exact pos_of_mul_pos_left this hscale.le

/-- What converts is a positive number printed without an exponent. -/
theorem converts_iff_plain {serde : SerdeJson} (hserde : serde.Displays) {v : Value}
    (hfinite : ∀ bits, v = .number (.float bits) → f64Finite bits) :
    (u256FromStratumDifficultyStr (serde.display v)).isSome ↔ v.Plain := by
  by_cases hnumber : ∃ n, v = .number n
  case neg =>
    -- the text of any other value starts with a character that no decimal has
    obtain ⟨c, hc, hhead⟩ := hserde.other v fun n hn => hnumber ⟨n, hn⟩
    have hforeign : c ∈ "-e\"[\x7bntf".toList := List.mem_cons_of_mem _ (List.mem_cons_of_mem _ hc)
    rw [not_converts_of_mem (List.mem_of_mem_head? hhead) hforeign]
    refine iff_of_false (by simp) ?_
    rintro ⟨n, hn, -⟩
    exact hnumber ⟨n, hn⟩
  case pos =>
    obtain ⟨n, rfl⟩ := hnumber
    have hplain : (Value.number n).Plain ↔ n.Plain := by
      constructor
      · rintro ⟨m, hm, h⟩
        rwa [Value.number.inj hm]
      · exact fun h => ⟨n, rfl, h⟩
    rw [hplain]
    cases n with
    | posInt n =>
      rw [hserde.posInt, fmtInt_converts_iff]
      exact Int.natCast_pos
    | negInt n => rw [hserde.negInt, fmtInt_converts_iff]; rfl
    -- a float converts when it prints as a plain decimal; a sign, an exponent and zero all fail
    | float bits =>
      have hfinite := hfinite bits rfl
      by_cases h : (Number.float bits).Plain
      · obtain ⟨d, htext, hnear⟩ := hserde.decimal bits hfinite h
        have hpositive : (Value.number (.float bits)).Positive := (hplain.mpr h).positive
        obtain ⟨m, hm, -, hunits⟩ : ∃ m, Number.float bits = m ∧ bits.msb = false
            ∧ 0 < f64Units bits := by
          obtain ⟨m, hm, hpos⟩ := hpositive
          obtain rfl := Value.number.inj hm
          exact ⟨_, rfl, hpos⟩
        rw [htext, d.converts_iff]
        exact iff_of_true (Decimal.value_pos_of_near hunits hnear) h
      · refine iff_of_false ?_ h
        rw [Bool.not_eq_true]
        cases hsign : bits.msb with
        | true =>
          exact not_converts_of_mem (List.mem_of_mem_head? (hserde.negative bits hfinite hsign))
            (by decide)
        | false =>
          obtain hzero | hpos := Nat.eq_zero_or_pos (f64Units bits)
          · rw [hserde.zero bits hsign hzero]
            decide +kernel
          · exact not_converts_of_mem (hserde.exponent bits hfinite ⟨hsign, hpos⟩ h) (by decide)

/-! ### The difficulty in force -/

/-- The values announced as difficulties, in order. -/
def announcements (serde : SerdeJson) (lines : List Str) : List Value :=
  lines.filterMap (onLine serde announced)

def convertible (serde : SerdeJson) (v : Value) : Bool :=
  (u256FromStratumDifficultyStr (serde.display v)).isSome

/-- A `mining.notify` that lacks nothing but a difficulty. -/
def WellFormedNotify (serde : SerdeJson) (line : Str) : Prop :=
  ∃ value xs payload, serde.fromStr line = .ok value
    ∧ method value = some "mining.notify".toList ∧ params value = some xs
    ∧ (xs.head?.bind Value.asStr).isSome ∧ jobPayload xs = .ok (some payload)

/-- What is promised of the session after some lines: a positive number just announced
converts, the last difficulty that converts is the one in force, and after a positive
number no job is dropped. -/
structure DifficultyUsable (serde : SerdeJson) (checks : Bool) (lines : List Str)
    (session : Session) : Prop where
  converts : ∀ v, (announcements serde lines).getLast? = some v → v.Positive →
    (session.handler.currentDifficulty.bind u256FromStratumDifficultyStr).isSome
  inForce : ∀ v, ((announcements serde lines).filter (convertible serde)).getLast? = some v →
    session.handler.currentDifficulty = some (serde.display v)
  notify : ∀ v ∈ announcements serde lines, v.Positive → ∀ line, WellFormedNotify serde line →
    ∃ job, (handleLine serde checks line session).2.jobs = job :: session.jobs

/-- Every positive number announced is printed without an exponent, and after the first of
them nothing else is announced. -/
structure AnnouncesPlain (vs : List Value) : Prop where
  positive : ∀ v ∈ vs, v.Positive → v.Plain
  after : vs.Pairwise fun v w => v.Plain → w.Plain

theorem announcedDifficulty_eq (serde : SerdeJson) (value : Value) :
    announcedDifficulty serde value = (announced value).map serde.display := by
  rw [announcedDifficulty, announced]
  split <;> rfl

theorem latestDifficulty_eq (serde : SerdeJson) (lines : List Str) :
    latestDifficulty serde lines = (announcements serde lines).getLast?.map serde.display := by
  have hline : onLine serde (announcedDifficulty serde)
      = fun line => (onLine serde announced line).map serde.display := by
    funext line
    rw [onLine, onLine]
    cases serde.fromStr line with
    | error e => rfl
    | ok value => exact announcedDifficulty_eq serde value
  rw [latestDifficulty, announcements, hline, ← List.map_filterMap, List.getLast?_map]

theorem handled_prefix {serde : SerdeJson} {checks : Bool} {lines before : List Str}
    {session : Session} (h : Handled serde checks lines session) (hbefore : before <+: lines) :
    ∃ t, Handled serde checks before t := by
  induction h with
  | connect =>
    rw [List.prefix_nil.mp hbefore]
    exact ⟨_, .connect⟩
  | line hlines hr h ih =>
    obtain rfl | hbefore := List.prefix_concat_iff.mp hbefore
    · exact ⟨_, hlines.line hr h⟩
    · exact ih hbefore

/-- An announced value is a finite number, if it is a double. -/
theorem finite_of_mem {serde : SerdeJson} (hserde : serde.Displays) {lines : List Str} {v : Value}
    (h : v ∈ announcements serde lines) (bits : U64) (hv : v = .number (.float bits)) :
    f64Finite bits := by
  obtain ⟨line, -, hline⟩ := List.mem_filterMap.mp h
  rw [onLine] at hline
  cases hparse : serde.fromStr line with
  | error e => rw [hparse] at hline; cases hline
  | ok value =>
    rw [hparse] at hline
    exact hserde.finite line value bits hparse (hv ▸ hline)

/-- A difficulty that converts lets every well-formed job through. -/
theorem notify_delivers {serde : SerdeJson} (checks : Bool) {session : Session} {line : Str}
    (hline : WellFormedNotify serde line)
    (h : (session.handler.currentDifficulty.bind u256FromStratumDifficultyStr).isSome) :
    ∃ job, (handleLine serde checks line session).2.jobs = job :: session.jobs := by
  obtain ⟨value, xs, payload, hparse, hmethod, hparams, hjobId, hpayload⟩ := hline
  obtain ⟨fallback, hfallback⟩ := Option.isSome_iff_exists.mp h
  obtain ⟨diff, hdiff, hfallback⟩ := Option.bind_eq_some_iff.mp hfallback
  obtain ⟨jobId, hjobId⟩ := Option.isSome_iff_exists.mp hjobId
  have hvalue : handleValue serde checks value session = notify value session := by
    rw [handleValue, show (value.get "method".toList).bind Value.asStr = _ from hmethod]
    rfl
  have hjob : ∃ job, notifiedJob session.handler value = some job := by
    rw [notifiedJob, if_pos hmethod, hparams]
    simp only [Option.bind_eq_bind, Option.bind_some, hjobId, hdiff, hfallback, hpayload]
    exact ⟨_, rfl⟩
  obtain ⟨job, hjob⟩ := hjob
  refine ⟨job, ?_⟩
  rw [handleLine, Method.lift_bind_run, hparse]
  simp only [Outcome.ofExcept]
  rw [hvalue, notify_run hmethod, hjob]
  rfl

theorem getLast?_filter_concat {α : Type} (p : α → Bool) (xs : List α) {x : α} (h : p x = true) :
    ((xs ++ [x]).filter p).getLast? = some x := by
  rw [List.filter_append, List.filter_singleton, h]
  exact List.getLast?_concat

/-- Once a plain number has been announced, the last announcement is one. -/
theorem AnnouncesPlain.exists_last {vs : List Value} (h : AnnouncesPlain vs) {w : Value}
    (hw : w ∈ vs) (hplain : w.Plain) : ∃ us v, vs = us ++ [v] ∧ v.Plain := by
  obtain rfl | ⟨us, v, rfl⟩ := List.eq_nil_or_concat vs
  · cases hw
  rw [List.concat_eq_append] at h hw ⊢
  refine ⟨us, v, rfl, ?_⟩
  obtain hw | hw := List.mem_append.mp hw
  · exact (List.pairwise_append.mp h.after).2.2 w hw v (List.mem_singleton_self v) hplain
  · rwa [← List.mem_singleton.mp hw]

/-- The condition keeps the difficulty usable. -/
theorem usable_of_plain {serde : SerdeJson} (hserde : serde.Displays) {checks : Bool}
    {lines : List Str} {session : Session} (h : Handled serde checks lines session)
    (hplain : AnnouncesPlain (announcements serde lines)) :
    DifficultyUsable serde checks lines session := by
  have hcurrent : session.handler.currentDifficulty
      = (announcements serde lines).getLast?.map serde.display := by
    rw [handler_of_lines h]
    exact latestDifficulty_eq serde lines
  have hiff : ∀ v ∈ announcements serde lines,
      (convertible serde v ↔ v.Plain) := fun v hv =>
    converts_iff_plain hserde (finite_of_mem hserde hv)
  -- the one argument: a plain number in the list makes the last announcement plain
  have hlast : ∀ w ∈ announcements serde lines, w.Plain → ∃ us v,
      announcements serde lines = us ++ [v] ∧ session.handler.currentDifficulty
        = some (serde.display v) ∧ convertible serde v := by
    intro w hw hwplain
    obtain ⟨us, v, hvs, hv⟩ := hplain.exists_last hw hwplain
    refine ⟨us, v, hvs, ?_, ?_⟩
    · rw [hcurrent, hvs, List.getLast?_concat]
      rfl
    · exact (hiff v (hvs ▸ by simp)).mpr hv
  have hconverts : ∀ w ∈ announcements serde lines, w.Plain →
      (session.handler.currentDifficulty.bind u256FromStratumDifficultyStr).isSome := by
    intro w hw hwplain
    obtain ⟨us, v, -, hdiff, hv⟩ := hlast w hw hwplain
    rw [hdiff]
    exact hv
  refine ⟨fun v hv hpositive => ?_, fun w hw => ?_, fun v hv hpositive line hline => ?_⟩
  · have hmem := List.mem_of_getLast? hv
    exact hconverts v hmem (hplain.positive v hmem hpositive)
  · obtain ⟨hmem, hw'⟩ := List.mem_filter.mp (List.mem_of_getLast? hw)
    obtain ⟨us, v, hvs, hdiff, hv⟩ := hlast w hmem ((hiff w hmem).mp hw')
    rw [hvs, getLast?_filter_concat (convertible serde) us hv] at hw
    rw [hdiff, Option.some.inj hw]
  · exact notify_delivers checks hline (hconverts v hv (hplain.positive v hv hpositive))

theorem pairwise_iff_append {α : Type} {R : α → α → Prop} {xs : List α} :
    xs.Pairwise R ↔ ∀ us x vs, xs = us ++ x :: vs → ∀ w ∈ us, R w x := by
  constructor
  · rintro h us x vs rfl w hw
    exact (List.pairwise_append.mp h).2.2 w hw x List.mem_cons_self
  · intro h
    rw [List.pairwise_iff_getElem]
    intro i j hi hj hij
    refine h (xs.take j) xs[j] (xs.drop (j + 1)) ?_ _ ?_
    · rw [← List.drop_eq_getElem_cons hj, List.take_append_drop]
    · rw [List.mem_take_iff_getElem]
      exact ⟨i, by omega, rfl⟩

/-- What has been announced at some point is what a first part of the lines announces. -/
theorem exists_prefix_of_announcements {serde : SerdeJson} {lines : List Str} {us vs : List Value}
    {v : Value} (h : announcements serde lines = us ++ v :: vs) :
    ∃ before, before <+: lines ∧ announcements serde before = us ++ [v] := by
  obtain ⟨l₁, l₂, rfl, hus, hrest⟩ := List.filterMap_eq_append_iff.mp h
  obtain ⟨l₃, line, l₄, rfl, hnone, hline, -⟩ := List.filterMap_eq_cons_iff.mp hrest
  refine ⟨l₁ ++ (l₃ ++ [line]), ⟨l₄, by simp⟩, ?_⟩
  rw [announcements, List.filterMap_append, List.filterMap_append, hus,
    List.filterMap_eq_nil_iff.mpr hnone]
  simp [hline]

/-- The difficulty stays usable over a history exactly when only plain numbers are announced
as difficulties, from the first positive number on. -/
theorem difficulty_stays_usable_iff (serde : SerdeJson) (hserde : serde.Displays) (checks : Bool)
    (lines : List Str) (session : Session) (h : Handled serde checks lines session) :
    (∀ before t, before <+: lines → Handled serde checks before t →
        DifficultyUsable serde checks before t)
      ↔ AnnouncesPlain (announcements serde lines) := by
  constructor
  · intro husable
    -- the state right after the announcement `v`
    have hpoint : ∀ us v vs, announcements serde lines = us ++ v :: vs → ∃ before t,
        announcements serde before = us ++ [v]
        ∧ t.handler.currentDifficulty = some (serde.display v)
        ∧ DifficultyUsable serde checks before t := by
      intro us v vs heq
      obtain ⟨before, hbefore, hannounced⟩ := exists_prefix_of_announcements heq
      obtain ⟨t, ht⟩ := handled_prefix h hbefore
      refine ⟨before, t, hannounced, ?_, husable before t hbefore ht⟩
      rw [handler_of_lines ht, latestDifficulty_eq, hannounced, List.getLast?_concat]
      rfl
    have hiff : ∀ v ∈ announcements serde lines,
        (convertible serde v ↔ v.Plain) := fun v hv =>
      converts_iff_plain hserde (finite_of_mem hserde hv)
    refine ⟨fun v hv hpositive => ?_, pairwise_iff_append.mpr fun us v vs heq w hw hwplain => ?_⟩
    · obtain ⟨us, vs, heq⟩ := List.append_of_mem hv
      obtain ⟨before, t, hannounced, hdiff, ht⟩ := hpoint us v vs heq
      have := ht.converts v (by rw [hannounced, List.getLast?_concat]) hpositive
      rw [hdiff] at this
      exact (hiff v hv).mp this
    · have hv : v ∈ announcements serde lines := by rw [heq]; simp
      have hw' : w ∈ announcements serde lines := by rw [heq]; simp [hw]
      obtain ⟨before, t, hannounced, hdiff, ht⟩ := hpoint us v vs heq
      -- `w` converts, so some announcement that converts is in force
      have hmem : w ∈ (announcements serde before).filter (convertible serde) := by
        rw [hannounced]
        exact List.mem_filter.mpr ⟨List.mem_append_left _ hw, (hiff w hw').mpr hwplain⟩
      obtain ⟨u, hu⟩ := Option.ne_none_iff_exists'.mp fun hnone =>
        List.ne_nil_of_mem hmem (List.getLast?_eq_none_iff.mp hnone)
      have hdisplay := (ht.inForce u hu).symm.trans hdiff
      have hconverts := (List.mem_filter.mp (List.mem_of_getLast? hu)).2
      rw [convertible, Option.some.inj hdisplay] at hconverts
      exact (hiff v hv).mp hconverts
  · intro hplain before t hbefore ht
    refine usable_of_plain hserde ht ?_
    obtain ⟨after, rfl⟩ := hbefore
    rw [announcements, List.filterMap_append] at hplain
    refine ⟨fun v hv => hplain.positive v (List.mem_append_left _ hv), ?_⟩
    exact (List.pairwise_append.mp hplain.after).1

/-! ### A printer, and a difficulty that stops the miner -/

/-- The last `k` decimal digits of `n`. -/
def fmtDecPad (k n : ℕ) : Str := (List.range k).reverse.map fun i => hexDigit (n / 10 ^ i % 10)

theorem fmtDecPad_succ (k n : ℕ) :
    fmtDecPad (k + 1) n = fmtDecPad k (n / 10) ++ [hexDigit (n % 10)] := by
  rw [fmtDecPad, fmtDecPad, List.range_succ_eq_map, List.reverse_cons, List.map_append,
    ← List.map_reverse, List.map_map, List.map_singleton, pow_zero, Nat.div_one]
  congr 1
  refine List.map_congr_left fun i _ => ?_
  rw [Function.comp_apply, Nat.succ_eq_add_one, pow_succ', Nat.div_div_eq_div_mul]

theorem allDigits_fmtDecPad (k n : ℕ) : AllDigits 10 (fmtDecPad k n) := by
  intro c hc
  obtain ⟨i, -, rfl⟩ := List.mem_map.mp hc
  rw [toDigit_ten_hexDigit (Nat.mod_lt _ (by norm_num))]
  rfl

theorem digitsValue_fmtDecPad (k n : ℕ) : digitsValue 10 (fmtDecPad k n) = n % 10 ^ k := by
  induction k generalizing n with
  | zero => rw [pow_zero, Nat.mod_one]; rfl
  | succ k ih =>
    rw [fmtDecPad_succ, digitsValue_append, ih, digitsValue_singleton,
      toDigit_ten_hexDigit (Nat.mod_lt _ (by norm_num)), Option.getD_some, pow_succ',
      Nat.mod_mul, List.length_singleton, pow_one]
    ring

namespace Decimal

/-- `n / 10 ^ k`, with all its places. -/
def fixedPoint (k n : ℕ) : Decimal where
  whole := fmtDec (n / 10 ^ k)
  frac := some (fmtDecPad k (n % 10 ^ k))
  allDigits_whole := allDigits_fmtDec _
  allDigits_frac := by
    rintro f hf
    obtain rfl := Option.some.inj hf
    exact allDigits_fmtDecPad _ _
  nonempty := Or.inl (fmtDec_ne_nil _)

theorem value_fixedPoint (k n : ℕ) : (fixedPoint k n).value = n / 10 ^ k := by
  have hlen : (fmtDecPad k (n % 10 ^ k)).length = k := by simp [fmtDecPad]
  have hsplit : ((n / 10 ^ k : ℕ) : ℚ) * 10 ^ k + (n % 10 ^ k : ℕ) = n := by
    exact_mod_cast Nat.div_add_mod' n (10 ^ k)
  rw [value]
  simp only [fixedPoint, places, Option.getD_some, digitsValue_fmtDec, digitsValue_fmtDecPad,
    Nat.mod_mod, hlen]
  rw [← hsplit]
  field_simp

/-- The same number without trailing zeros. -/
def shortest (k n : ℕ) : Decimal where
  whole := (fixedPoint k n).whole
  frac := some (fixedPoint k n).trimmed
  allDigits_whole := (fixedPoint k n).allDigits_whole
  allDigits_frac := by
    rintro f hf
    obtain rfl := Option.some.inj hf
    exact (fixedPoint k n).allDigits_trimmed
  nonempty := Or.inl (fmtDec_ne_nil _)

theorem value_shortest (k n : ℕ) : (shortest k n).value = n / 10 ^ k :=
  (fixedPoint k n).value_eq.symm.trans (value_fixedPoint k n)

end Decimal

/-- A printer with all digits of a double. -/
def samplePrint : Value → Str
  | .null => "null".toList
  | .bool b => if b then "true".toList else "false".toList
  | .number (.posInt n) => fmtInt n.toNat
  | .number (.negInt n) => fmtInt n.toInt
  | .number (.float bits) =>
    if bits.msb then "-0.5".toList
    else if f64Units bits = 0 then "0.0".toList
    else if 2 ^ f64Places ≤ 10 ^ 5 * f64Units bits ∧ f64Units bits < 10 ^ 16 * 2 ^ f64Places then
      (Decimal.shortest f64Places (f64Units bits * 5 ^ f64Places)).text
    else "1e-6".toList
  | .string _ => "\"\"".toList
  | .array _ => "[]".toList
  | .object _ => "\x7b\x7d".toList

/-- The difficulties a half and a millionth. -/
def half : Value := .number (.float 0x3FE0000000000000)
def millionth : Value := .number (.float 0x3EB0C6F7A0B5ED8D)

def halfLine : Str := "\x7b\"method\":\"mining.set_difficulty\",\"params\":[0.5]\x7d".toList

def millionthLine : Str := "\x7b\"method\":\"mining.set_difficulty\",\"params\":[1e-6]\x7d".toList

def difficultyValue (v : Value) : Value :=
  .object [("method".toList, .string "mining.set_difficulty".toList), ("params".toList, .array [v])]

def difficultySerde : SerdeJson where
  fromStr := fun line =>
    if line = halfLine then .ok (difficultyValue half)
    else if line = millionthLine then .ok (difficultyValue millionth)
    else noticeSerde.fromStr line
  display := samplePrint

theorem shortest_near (bits : U64) :
    |(Decimal.shortest f64Places (f64Units bits * 5 ^ f64Places)).value
      * 2 ^ f64Places - f64Units bits|
      ≤ (f64Ulp bits : ℚ) / 2 := by
  have hten : (10 : ℚ) ^ f64Places = 2 ^ f64Places * 5 ^ f64Places := by rw [← mul_pow]; norm_num
  have htwo : (2 : ℚ) ^ f64Places ≠ 0 := by positivity
  have hfive : (5 : ℚ) ^ f64Places ≠ 0 := by positivity
  rw [Decimal.value_shortest, hten, Nat.cast_mul, Nat.cast_pow, Nat.cast_ofNat]
  generalize (2 : ℚ) ^ f64Places = two at htwo
  generalize (5 : ℚ) ^ f64Places = five at hfive
  have : (f64Units bits : ℚ) * five / (two * five) * two - f64Units bits = 0 := by
    field_simp
    ring
  rw [this, abs_zero]
  exact div_nonneg (Nat.cast_nonneg _) zero_le_two

theorem difficultySerde_displays : difficultySerde.Displays where
  posInt n := rfl
  negInt n := rfl
  decimal bits _ hplain := by
    have hunits : f64Units bits ≠ 0 := by
      intro hzero
      have := hplain.2.1
      rw [hzero, Nat.mul_zero] at this
      exact absurd this (by simp)
    refine ⟨_, ?_, shortest_near bits⟩
    simp only [difficultySerde, samplePrint]
    rw [if_neg (by simp [hplain.1]), if_neg hunits, if_pos hplain.2]
  exponent bits _ hpositive hplain := by
    simp only [difficultySerde, samplePrint]
    rw [if_neg (by simp [hpositive.1]), if_neg hpositive.2.ne',
      if_neg fun hrange => hplain ⟨hpositive.1, hrange⟩]
    decide
  zero bits hsign hzero := by
    simp only [difficultySerde, samplePrint]
    rw [if_neg (by simp [hsign]), if_pos hzero]
  negative bits _ hsign := by
    simp only [difficultySerde, samplePrint]
    rw [if_pos hsign]
    rfl
  other v hv := by
    cases v with
    | null => exact ⟨'n', by decide, rfl⟩
    | bool b =>
      cases b
      · exact ⟨'f', by decide, rfl⟩
      · exact ⟨'t', by decide, rfl⟩
    | number n => exact absurd rfl (hv n)
    | string s => exact ⟨'"', by decide, rfl⟩
    | array xs => exact ⟨'[', by decide, rfl⟩
    | object fields => exact ⟨'\x7b', by decide, rfl⟩
  -- the only lines that parse are the three samples
  finite line value bits hline hannounced := by
    have hcases : value = difficultyValue half ∨ value = difficultyValue millionth
        ∨ value = noticeValue := by
      simp only [difficultySerde, noticeSerde] at hline
      split at hline
      · exact Or.inl (Except.ok.inj hline).symm
      · split at hline
        · exact Or.inr (Or.inl (Except.ok.inj hline).symm)
        · split at hline
          · exact Or.inr (Or.inr (Except.ok.inj hline).symm)
          · cases hline
    obtain rfl | rfl | rfl := hcases
    · have : half = .number (.float bits) := Option.some.inj hannounced
      rw [← Number.float.inj (Value.number.inj this), f64Finite]
      decide
    · have : millionth = .number (.float bits) := Option.some.inj hannounced
      rw [← Number.float.inj (Value.number.inj this), f64Finite]
      decide
    · have : announced noticeValue = none := by decide
      rw [this] at hannounced
      cases hannounced

/-- A half stays in force, and the job is delivered. -/
theorem half_stays_usable :
    Handled difficultySerde false [halfLine] ⟨⟨some "0.5".toList, BitVec.allOnes 64, 0⟩, []⟩
      ∧ ∀ before t, before <+: [halfLine] → Handled difficultySerde false before t →
        DifficultyUsable difficultySerde false before t := by
  have hhandled : Handled difficultySerde false [halfLine]
      ⟨⟨some "0.5".toList, BitVec.allOnes 64, 0⟩, []⟩ :=
    .line (r := .ok ()) .connect (by simp) (by decide +kernel)
  refine ⟨hhandled, (difficulty_stays_usable_iff difficultySerde difficultySerde_displays false
    [halfLine] _ hhandled).mpr ⟨?_, List.pairwise_singleton _ _⟩⟩
  intro v hv _
  obtain rfl : v = half := List.mem_singleton.mp hv
  refine ⟨_, rfl, by decide, ?_, ?_⟩
  · decide +kernel
  · decide +kernel

/-- A millionth after it is stored as `1e-6`, and the next job is dropped. -/
theorem millionth_drops_job :
    difficultySerde.Displays
      ∧ Handled difficultySerde false [halfLine, millionthLine]
        ⟨⟨some "1e-6".toList, BitVec.allOnes 64, 0⟩, []⟩
      ∧ millionth.Positive
      ∧ u256FromStratumDifficultyStr "0.5".toList ≠ none
      ∧ u256FromStratumDifficultyStr "1e-6".toList = none
      ∧ WellFormedNotify difficultySerde noticeLine
      ∧ (handleLine difficultySerde false noticeLine
          ⟨⟨some "1e-6".toList, BitVec.allOnes 64, 0⟩, []⟩).2.jobs = []
      ∧ ¬ DifficultyUsable difficultySerde false [halfLine, millionthLine]
          ⟨⟨some "1e-6".toList, BitVec.allOnes 64, 0⟩, []⟩ := by
  have hhalf : Handled difficultySerde false [halfLine]
      ⟨⟨some "0.5".toList, BitVec.allOnes 64, 0⟩, []⟩ :=
    .line (r := .ok ()) .connect (by simp) (by decide +kernel)
  have hmillionth : millionth.Positive := ⟨_, rfl, by decide, by decide +kernel⟩
  refine ⟨difficultySerde_displays, .line (r := .ok ()) hhalf (by simp) (by decide +kernel),
    hmillionth, by decide +kernel, by decide +kernel, ?_, by decide +kernel, ?_⟩
  · refine ⟨noticeValue, _, _, ?_, rfl, rfl, rfl, rfl⟩
    have hne : noticeLine ≠ halfLine ∧ noticeLine ≠ millionthLine := by decide +kernel
    simp only [difficultySerde, if_neg hne.1, if_neg hne.2, noticeSerde, if_true]
  · intro h
    have := h.converts millionth rfl hmillionth
    revert this
    decide +kernel
