/-
The part of Rust's standard library the miner's text handling rests on.

A `str` is a list of characters; its length and its slice indices count UTF-8
bytes, and a slice whose end falls inside a character panics.  A call ends in
an `Outcome`: a value, an error the caller sees, or a panic.

* `len`, `splitAtByte`, `slice` — byte lengths and slicing;
* `trim`, `trimStart0x`, `strip0x`, `trimEndMatches`, `splitOnce` — trimming and
  splitting;
* `fromStrRadix` — the integer parser behind `u8::from_str_radix` and
  `u64::from_str_radix`, leading `+` included;
* `addU32`, `mulU32`, `shlU64` — arithmetic with overflow checks on or off;
* `fmtHex` — `{:0kx}`.
-/
import VelkarMiner.Words
import Mathlib.Data.List.TakeWhile
import Mathlib.Data.Nat.Digits.Lemmas

namespace Rust

/-! ### Outcomes -/

/-- How a call ends. -/
inductive Outcome (ε α : Type) where
  | ok (a : α)
  | err (e : ε)
  | panic
deriving DecidableEq

namespace Outcome

variable {ε α β : Type}

def bind : Outcome ε α → (α → Outcome ε β) → Outcome ε β
  | ok a, f => f a
  | err e, _ => err e
  | panic, _ => panic

instance : Monad (Outcome ε) where
  pure := ok
  bind := bind

@[simp] theorem pure_eq (a : α) : (pure a : Outcome ε α) = ok a := rfl
@[simp] theorem ok_bind (a : α) (f : α → Outcome ε β) : (ok a >>= f) = f a := rfl
@[simp] theorem err_bind (e : ε) (f : α → Outcome ε β) : (err e >>= f) = err e := rfl
@[simp] theorem panic_bind (f : α → Outcome ε β) : ((panic : Outcome ε α) >>= f) = panic := rfl

instance : LawfulMonad (Outcome ε) :=
  LawfulMonad.mk' _ (fun x => by cases x <;> rfl) (fun _ _ => rfl)
    (fun x _ _ => by cases x <;> rfl)

theorem bind_eq_ok {x : Outcome ε α} {f : α → Outcome ε β} {b : β} :
    (x >>= f) = ok b ↔ ∃ a, x = ok a ∧ f a = ok b := by
  cases x <;> simp

/-- `opt.ok_or(e)?`. -/
def okOr (o : Option α) (e : ε) : Outcome ε α := o.elim (err e) ok

@[simp] theorem okOr_some (a : α) (e : ε) : okOr (some a) e = ok a := rfl
@[simp] theorem okOr_none (e : ε) : okOr (none : Option α) e = err e := rfl

/-- `opt.expect(_)`. -/
def expect (o : Option α) : Outcome ε α := o.elim panic ok

@[simp] theorem expect_some (a : α) : (expect (some a) : Outcome ε α) = ok a := rfl
@[simp] theorem expect_none : (expect (none : Option α) : Outcome ε α) = panic := rfl

/-- `result.unwrap()`. -/
def unwrap {δ : Type} : Except δ α → Outcome ε α
  | .ok a => ok a
  | .error _ => panic

/-- `result?`, with the error boxed. -/
def ofExcept {δ : Type} (box : δ → ε) : Except δ α → Outcome ε α
  | .ok a => ok a
  | .error e => err (box e)

end Outcome

/-- A method on `&mut self`: what it has changed stays changed when it fails. -/
def Method (σ ε α : Type) := σ → Outcome ε α × σ

namespace Method

variable {σ ε α β : Type}

def bind (x : Method σ ε α) (f : α → Method σ ε β) : Method σ ε β := fun s =>
  match x s with
  | (.ok a, s) => f a s
  | (.err e, s) => (.err e, s)
  | (.panic, s) => (.panic, s)

instance : Monad (Method σ ε) where
  pure a := fun s => (.ok a, s)
  bind := bind

/-- A computation that leaves the state alone. -/
def lift (x : Outcome ε α) : Method σ ε α := fun s => (x, s)

def modify (f : σ → σ) : Method σ ε Unit := fun s => (.ok (), f s)

@[simp] theorem pure_run (a : α) (s : σ) : (pure a : Method σ ε α) s = (.ok a, s) := rfl

@[simp] theorem modify_run (f : σ → σ) (s : σ) :
    (modify f : Method σ ε Unit) s = (.ok (), f s) := rfl

@[simp] theorem lift_run (x : Outcome ε α) (s : σ) : (lift x : Method σ ε α) s = (x, s) := rfl

theorem bind_run (x : Method σ ε α) (f : α → Method σ ε β) (s : σ) :
    (x >>= f) s = match x s with
      | (.ok a, s) => f a s
      | (.err e, s) => (.err e, s)
      | (.panic, s) => (.panic, s) := rfl

@[simp] theorem lift_bind_run (x : Outcome ε α) (f : α → Method σ ε β) (s : σ) :
    (lift x >>= f) s = match x with
      | .ok a => f a s
      | .err e => (.err e, s)
      | .panic => (.panic, s) := by
  cases x <;> rfl

@[simp] theorem modify_bind_run (g : σ → σ) (f : Unit → Method σ ε β) (s : σ) :
    (modify g >>= f) s = f () (g s) := rfl

end Method

/-! ### Strings -/

/-- A string slice. -/
abbrev Str := List Char

/-- The length in bytes. -/
def len (s : Str) : ℕ := (s.map Char.utf8Size).sum

@[simp] theorem len_nil : len [] = 0 := rfl

@[simp] theorem len_cons (c : Char) (s : Str) : len (c :: s) = c.utf8Size + len s := rfl

@[simp] theorem len_append (s t : Str) : len (s ++ t) = len s + len t := by
  simp [len]

/-- The code points of Unicode `White_Space`. -/
def isWhitespace (c : Char) : Bool :=
  let n := c.toNat
  (9 ≤ n && n ≤ 13) || n == 0x20 || n == 0x85 || n == 0xA0 || n == 0x1680
    || (0x2000 ≤ n && n ≤ 0x200A) || n == 0x2028 || n == 0x2029 || n == 0x202F
    || n == 0x205F || n == 0x3000

def trim (s : Str) : Str := ((s.dropWhile isWhitespace).reverse.dropWhile isWhitespace).reverse

theorem trim_eq_self {s : Str} (h : ∀ c ∈ s, isWhitespace c = false) : trim s = s := by
  have drop_eq : ∀ t : Str, (∀ c ∈ t, isWhitespace c = false) → t.dropWhile isWhitespace = t := by
    intro t ht
    cases t with
    | nil => rfl
    | cons c t => rw [List.dropWhile_cons_of_neg (by simp [ht c (by simp)])]
  rw [trim, drop_eq s h, drop_eq s.reverse (by simpa using h), List.reverse_reverse]

/-- `trim_end_matches(c)`. -/
def trimEndMatches (c : Char) (s : Str) : Str := (s.reverse.dropWhile (· == c)).reverse

/-- What is trimmed off the end is a run of the character, and none is left. -/
theorem trimEndMatches_spec (c : Char) (s : Str) :
    (∃ k, s = trimEndMatches c s ++ List.replicate k c)
      ∧ (trimEndMatches c s).getLast? ≠ some c := by
  constructor
  · refine ⟨(s.reverse.takeWhile (· == c)).length, ?_⟩
    have hrun : s.reverse.takeWhile (· == c)
        = List.replicate (s.reverse.takeWhile (· == c)).length c := by
      apply List.eq_replicate_of_mem
      intro b hb
      simpa using List.mem_takeWhile_imp hb
    have := congrArg List.reverse (List.takeWhile_append_dropWhile (p := (· == c)) (l := s.reverse))
    rw [List.reverse_append, List.reverse_reverse, hrun, List.reverse_replicate] at this
    exact this.symm
  · rw [trimEndMatches, List.getLast?_reverse]
    intro h
    have := List.head?_dropWhile_not (· == c) s.reverse
    rw [h] at this
    simp at this

/-- `split_once(c)`. -/
def splitOnce (c : Char) : Str → Option (Str × Str)
  | [] => none
  | a :: s => if a = c then some ([], s) else (splitOnce c s).map fun r => (a :: r.1, r.2)

theorem splitOnce_eq_none {c : Char} {s : Str} (h : c ∉ s) : splitOnce c s = none := by
  induction s with
  | nil => rfl
  | cons a s ih =>
    rw [List.mem_cons, not_or] at h
    rw [splitOnce, if_neg (Ne.symm h.1), ih h.2, Option.map_none]

theorem splitOnce_append {c : Char} {s : Str} (h : c ∉ s) (t : Str) :
    splitOnce c (s ++ c :: t) = some (s, t) := by
  induction s with
  | nil => simp [splitOnce]
  | cons a s ih =>
    rw [List.mem_cons, not_or] at h
    rw [List.cons_append, splitOnce, if_neg (Ne.symm h.1), ih h.2, Option.map_some]

/-- `strip_prefix("0x").unwrap_or(s)`: one prefix at most. -/
def strip0x : Str → Str
  | '0' :: 'x' :: s => s
  | s => s

/-- `trim_start_matches("0x")`: the prefix as often as it occurs. -/
def trimStart0x : Str → Str
  | '0' :: 'x' :: s => trimStart0x s
  | s => s

/-- The two sides of byte index `i`, when `i` is a character boundary. -/
def splitAtByte : Str → ℕ → Option (Str × Str)
  | s, 0 => some ([], s)
  | [], _ + 1 => none
  | c :: s, i + 1 =>
    if c.utf8Size ≤ i + 1 then
      (splitAtByte s (i + 1 - c.utf8Size)).map fun r => (c :: r.1, r.2)
    else none

/-- `&s[a..b]`. -/
def slice {ε : Type} (s : Str) (a b : ℕ) : Outcome ε Str :=
  match splitAtByte s a with
  | none => .panic
  | some (_, t) =>
    match splitAtByte t (b - a) with
    | none => .panic
    | some (u, _) => .ok u

/-- `s.as_bytes()`: the UTF-8 encoding. -/
def asBytes (s : Str) : List Byte := s.flatMap fun c => (String.utf8EncodeChar c).map UInt8.toBitVec

/-! ### Integers from strings -/

inductive IntErrorKind where
  | empty
  | invalidDigit
  | posOverflow
deriving DecidableEq

/-- `Box<dyn Error>`, by what was boxed. -/
inductive Error where
  | message (text : Str)
  | parseInt (kind : IntErrorKind)
  | json (text : Str)
deriving DecidableEq

/-- `char::to_digit`. -/
def toDigit (radix : ℕ) (c : Char) : Option ℕ :=
  let n := c.toNat
  let d := if 48 ≤ n ∧ n ≤ 57 then some (n - 48)
    else if 97 ≤ n ∧ n ≤ 122 then some (n - 97 + 10)
    else if 65 ≤ n ∧ n ≤ 90 then some (n - 65 + 10)
    else none
  d.filter (· < radix)

theorem toDigit_eq_none {c : Char} (h : c.utf8Size ≠ 1) (radix : ℕ) : toDigit radix c = none := by
  have hc : 127 < c.toNat := by
    by_contra hlt
    apply h
    rw [Char.utf8Size_eq_one_iff, UInt32.le_iff_toNat_le]
    change c.toNat ≤ 127
    omega
  rw [toDigit, if_neg (by omega), if_neg (by omega), if_neg (by omega)]
  rfl

/-- The digit loop of the parser, from the accumulated value `r`. -/
def parseDigits (w radix : ℕ) : ℕ → Str → Except IntErrorKind ℕ
  | r, [] => .ok r
  | r, c :: s =>
    match toDigit radix c with
    | none => .error .invalidDigit
    | some d => if r * radix + d < 2 ^ w then parseDigits w radix (r * radix + d) s
      else .error .posOverflow

/-- `uN::from_str_radix` for an unsigned type of `w` bits. -/
def fromStrRadix (w radix : ℕ) : Str → Except IntErrorKind ℕ
  | [] => .error .empty
  | ['+'] => .error .invalidDigit
  | '+' :: s => parseDigits w radix 0 s
  | s => parseDigits w radix 0 s

/-- The integer a string of digits denotes. -/
def digitsValue (radix : ℕ) (s : Str) : ℕ :=
  Nat.ofDigits radix (s.map fun c => (toDigit radix c).getD 0).reverse

/-- All characters are digits. -/
def AllDigits (radix : ℕ) (s : Str) : Prop := ∀ c ∈ s, (toDigit radix c).isSome

instance (radix : ℕ) (s : Str) : Decidable (AllDigits radix s) :=
  List.decidableBAll (fun c => (toDigit radix c).isSome = true) s

@[simp] theorem digitsValue_nil (radix : ℕ) : digitsValue radix [] = 0 := rfl

theorem digitsValue_append (radix : ℕ) (s t : Str) :
    digitsValue radix (s ++ t) = digitsValue radix s * radix ^ t.length + digitsValue radix t := by
  rw [digitsValue, List.map_append, List.reverse_append, Nat.ofDigits_append, List.length_reverse,
    List.length_map, ← digitsValue, ← digitsValue]
  ring

theorem digitsValue_singleton (radix : ℕ) (c : Char) :
    digitsValue radix [c] = (toDigit radix c).getD 0 := by
  simp [digitsValue]

theorem digitsValue_cons (radix : ℕ) (c : Char) (s : Str) :
    digitsValue radix (c :: s)
      = (toDigit radix c).getD 0 * radix ^ s.length + digitsValue radix s := by
  rw [← List.singleton_append, digitsValue_append, digitsValue_singleton]

/-- Digits are ASCII characters. -/
theorem utf8Size_of_digit {radix : ℕ} {c : Char} (h : (toDigit radix c).isSome) :
    c.utf8Size = 1 := by
  by_contra hwide
  rw [toDigit_eq_none hwide] at h
  exact absurd h (by simp)

theorem len_of_allDigits {radix : ℕ} {s : Str} (h : AllDigits radix s) : len s = s.length := by
  induction s with
  | nil => rfl
  | cons c s ih =>
    have hc : c.utf8Size = 1 := utf8Size_of_digit (h c List.mem_cons_self)
    rw [len_cons, hc, ih fun d hd => h d (by simp [hd]), List.length_cons, Nat.add_comm]

theorem asBytes_of_allDigits {radix : ℕ} {s : Str} (h : AllDigits radix s) :
    asBytes s = s.map fun c => BitVec.ofNat 8 c.toNat := by
  induction s with
  | nil => rfl
  | cons c s ih =>
    have hc : c.utf8Size = 1 := utf8Size_of_digit (h c List.mem_cons_self)
    have hcons : asBytes (c :: s)
        = (String.utf8EncodeChar c).map UInt8.toBitVec ++ asBytes s := rfl
    rw [hcons, ih fun d hd => h d (List.mem_cons_of_mem c hd),
      String.utf8EncodeChar_eq_singleton hc]
    rfl

theorem toDigit_lt {radix d : ℕ} {c : Char} (h : toDigit radix c = some d) : d < radix := by
  rw [toDigit, Option.filter_eq_some_iff] at h
  simpa using h.2

theorem digitsValue_lt {radix : ℕ} {s : Str} (h : AllDigits radix s) :
    digitsValue radix s < radix ^ s.length := by
  induction s with
  | nil => simp
  | cons c s ih =>
    obtain ⟨d, hd⟩ := Option.isSome_iff_exists.mp (h c (by simp))
    have hlt := toDigit_lt hd
    have hs := ih fun e he => h e (by simp [he])
    rw [digitsValue_cons, hd, Option.getD_some, List.length_cons, pow_succ]
    calc d * radix ^ s.length + digitsValue radix s
        < d * radix ^ s.length + radix ^ s.length := by omega
      _ = (d + 1) * radix ^ s.length := by ring
      _ ≤ radix * radix ^ s.length := Nat.mul_le_mul_right _ hlt
      _ = radix ^ s.length * radix := by ring

/-- The parser returns the value of the digits, unless it does not fit. -/
theorem parseDigits_eq {w radix : ℕ} (hr : 0 < radix) {s : Str} (h : AllDigits radix s) {r : ℕ}
    (hlt : r < 2 ^ w) :
    parseDigits w radix r s = if r * radix ^ s.length + digitsValue radix s < 2 ^ w
      then .ok (r * radix ^ s.length + digitsValue radix s) else .error .posOverflow := by
  induction s generalizing r with
  | nil => simp [parseDigits, hlt]
  | cons c s ih =>
    obtain ⟨d, hd⟩ := Option.isSome_iff_exists.mp (h c (by simp))
    have hs : AllDigits radix s := fun e he => h e (by simp [he])
    have hsum : r * radix ^ (c :: s).length + digitsValue radix (c :: s)
        = (r * radix + d) * radix ^ s.length + digitsValue radix s := by
      rw [digitsValue_cons, hd, Option.getD_some, List.length_cons, pow_succ]
      ring
    rw [hsum, parseDigits, hd]
    simp only
    split
    case isTrue hfit => exact ih hs hfit
    case isFalse hfit =>
      -- a prefix that does not fit is not made smaller by more digits
      have : r * radix + d ≤ (r * radix + d) * radix ^ s.length :=
        Nat.le_mul_of_pos_right _ (Nat.pow_pos hr)
      rw [if_neg (by omega)]

theorem fromStrRadix_eq {w radix : ℕ} (hr : 0 < radix) {s : Str} (h : AllDigits radix s)
    (hne : s ≠ []) (hplus : '+' ∉ s) :
    fromStrRadix w radix s = if digitsValue radix s < 2 ^ w
      then .ok (digitsValue radix s) else .error .posOverflow := by
  have hparse := parseDigits_eq (w := w) hr h (r := 0) (by positivity)
  rw [Nat.zero_mul, Nat.zero_add] at hparse
  unfold fromStrRadix
  split
  · exact absurd rfl hne
  · exact absurd (by simp) hplus
  · exact absurd (by simp) hplus
  · exact hparse

/-! ### Arithmetic with overflow checks -/

/-- The value of `a + b` in `u32`, for a build with (`true`) or without overflow checks. -/
def addU32 {ε : Type} (checks : Bool) (a b : ℕ) : Outcome ε ℕ :=
  if a + b < 2 ^ 32 then .ok (a + b) else if checks then .panic else .ok ((a + b) % 2 ^ 32)

def mulU32 {ε : Type} (checks : Bool) (a b : ℕ) : Outcome ε ℕ :=
  if a * b < 2 ^ 32 then .ok (a * b) else if checks then .panic else .ok (a * b % 2 ^ 32)

/-- `x << s` in `u64`: without checks the shift amount is taken modulo 64. -/
def shlU64 {ε : Type} (checks : Bool) (x : U64) (s : ℕ) : Outcome ε U64 :=
  if s < 64 then .ok (x <<< s) else if checks then .panic else .ok (x <<< (s % 64))

/-! ### Formatting -/

/-- The lower-case hexadecimal digit of `n < 16`. -/
def hexDigit (n : ℕ) : Char := Char.ofNat (if n < 10 then 48 + n else 87 + n)

/-- `{:0kx}` of a value below `16 ^ k`. -/
def fmtHex (k n : ℕ) : Str := (List.range k).reverse.map fun i => hexDigit (n / 16 ^ i % 16)

@[simp] theorem length_fmtHex (k n : ℕ) : (fmtHex k n).length = k := by
  simp [fmtHex]

theorem getElem_fmtHex (k n i : ℕ) (h : i < (fmtHex k n).length) :
    (fmtHex k n)[i] = hexDigit (n / 16 ^ (k - 1 - i) % 16) := by
  simp [fmtHex]

/-- The leading digits are those of the leading part. -/
theorem take_fmtHex {j k : ℕ} (h : j ≤ k) (n : ℕ) :
    (fmtHex k n).take j = fmtHex j (n / 16 ^ (k - j)) := by
  apply List.ext_getElem
  · simp [h]
  · intro i h₁ h₂
    have hi : i < j := by simpa using h₂
    rw [List.getElem_take, getElem_fmtHex, getElem_fmtHex, Nat.div_div_eq_div_mul, ← pow_add,
      show k - j + (j - 1 - i) = k - 1 - i by omega]

theorem hexDigit_injective {a b : ℕ} (ha : a < 16) (hb : b < 16) (h : hexDigit a = hexDigit b) :
    a = b := by
  have : ∀ a < 16, ∀ b < 16, hexDigit a = hexDigit b → a = b := by decide
  exact this a ha b hb h

theorem fmtHex_succ (k n : ℕ) : fmtHex (k + 1) n = fmtHex k (n / 16) ++ [hexDigit (n % 16)] := by
  apply List.ext_getElem
  · simp
  · intro i h₁ h₂
    rw [getElem_fmtHex]
    have hi : i < k + 1 := by simpa using h₁
    by_cases hk : i < k
    · rw [List.getElem_append_left (by simpa using hk), getElem_fmtHex, Nat.div_div_eq_div_mul,
        ← pow_succ', show k - 1 - i + 1 = k + 1 - 1 - i by omega]
    · obtain rfl : i = k := by omega
      simp

theorem fmtHex_injective {k a b : ℕ} (ha : a < 16 ^ k) (hb : b < 16 ^ k)
    (h : fmtHex k a = fmtHex k b) : a = b := by
  induction k generalizing a b with
  | zero => simp at ha hb; omega
  | succ k ih =>
    rw [fmtHex_succ, fmtHex_succ] at h
    obtain ⟨hhigh, hlow⟩ := List.append_inj h (by simp)
    have h₁ := ih (Nat.div_lt_of_lt_mul (by rwa [pow_succ'] at ha))
      (Nat.div_lt_of_lt_mul (by rwa [pow_succ'] at hb)) hhigh
    have h₂ := hexDigit_injective (Nat.mod_lt a (by norm_num)) (Nat.mod_lt b (by norm_num))
      (by simpa using hlow)
    omega

/-- A hexadecimal digit in lower case is the digit of its value. -/
theorem hexDigit_toDigit {c : Char} {d : ℕ} (h : toDigit 16 c = some d) :
    hexDigit d = c.toLower := by
  have hall : ∀ n < 128, ∀ d < 16, toDigit 16 (Char.ofNat n) = some d →
      hexDigit d = (Char.ofNat n).toLower := by decide +kernel
  have hsmall : c.toNat < 128 := by
    by_contra hbig
    rw [toDigit, if_neg (by omega), if_neg (by omega), if_neg (by omega)] at h
    simp at h
  have := hall c.toNat hsmall d (toDigit_lt h)
  rw [Char.ofNat_toNat] at this
  exact this h

/-- A string of hexadecimal digits in lower case is its value, formatted. -/
theorem map_toLower_eq_fmtHex {s : Str} (h : AllDigits 16 s) :
    s.map Char.toLower = fmtHex s.length (digitsValue 16 s) := by
  induction s using List.reverseRecOn with
  | nil => rfl
  | append_singleton s c ih =>
    obtain ⟨d, hd⟩ := Option.isSome_iff_exists.mp (h c (by simp))
    have hs : AllDigits 16 s := fun e he => h e (by simp [he])
    have hlt := toDigit_lt hd
    have hvalue : digitsValue 16 (s ++ [c]) = digitsValue 16 s * 16 + d := by
      rw [digitsValue_append, digitsValue_singleton, hd]
      simp
    rw [List.length_append, List.length_singleton, fmtHex_succ, hvalue, List.map_append, ih hs,
      show (digitsValue 16 s * 16 + d) / 16 = digitsValue 16 s by omega,
      show (digitsValue 16 s * 16 + d) % 16 = d by omega, hexDigit_toDigit hd]
    rfl

theorem toDigit_hexDigit {d : ℕ} (h : d < 16) : toDigit 16 (hexDigit d) = some d := by
  have : ∀ d < 16, toDigit 16 (hexDigit d) = some d := by decide
  exact this d h

/-- Upper and lower case are the same digit. -/
theorem toDigit_toLower (c : Char) : toDigit 16 c.toLower = toDigit 16 c := by
  obtain hrange | hrange := em (65 ≤ c.toNat ∧ c.toNat ≤ 90)
  · have hall : ∀ n < 26, toDigit 16 (Char.ofNat (65 + n)).toLower
        = toDigit 16 (Char.ofNat (65 + n)) := by decide +kernel
    have := hall (c.toNat - 65) (by omega)
    rwa [Nat.add_sub_cancel' hrange.1, Char.ofNat_toNat] at this
  · have hlower : c.toLower = c := by
      apply dif_neg
      rw [ge_iff_le, UInt32.le_iff_toNat_le, UInt32.le_iff_toNat_le]
      exact hrange
    rw [hlower]

theorem isSome_toDigit_of_toLower {c : Char} {k n : ℕ} (h : c.toLower ∈ fmtHex k n) :
    (toDigit 16 c).isSome := by
  obtain ⟨i, -, hi⟩ := List.mem_map.mp h
  rw [← toDigit_toLower, ← hi, toDigit_hexDigit (Nat.mod_lt _ (by norm_num))]
  rfl

theorem allDigits_of_toLower {s : Str} {k n : ℕ} (h : s.map Char.toLower = fmtHex k n) :
    AllDigits 16 s := by
  intro c hc
  have hmem : c.toLower ∈ s.map Char.toLower := List.mem_map_of_mem hc
  rw [h] at hmem
  exact isSome_toDigit_of_toLower hmem

/-- The parser reads what the formatter writes, in either case. -/
theorem fromStrRadix_fmtHex {w k n : ℕ} {s : Str} (hk : 0 < k)
    (hn : n < 16 ^ k) (hw : n < 2 ^ w) (h : s.map Char.toLower = fmtHex k n) :
    fromStrRadix w 16 s = .ok n := by
  have hdigits := allDigits_of_toLower h
  have hlen : s.length = k := by
    have := congrArg List.length h
    simpa using this
  have hvalue : digitsValue 16 s = n := by
    refine fmtHex_injective (hlen ▸ digitsValue_lt hdigits) hn ?_
    have hlower := map_toLower_eq_fmtHex hdigits
    rw [hlen] at hlower
    exact hlower.symm.trans h
  have hne : s ≠ [] := by
    rintro rfl
    simp at hlen
    omega
  have hplus : '+' ∉ s := fun hmem => absurd (hdigits _ hmem) (by decide)
  rw [fromStrRadix_eq (by norm_num) hdigits hne hplus, hvalue, if_pos hw]

/-- When a string of hexadecimal digits begins the formatted value. -/
theorem prefix_fmtHex_iff {s : Str} (h : AllDigits 16 s) {k n : ℕ} (hn : n < 16 ^ k) :
    s.map Char.toLower <+: fmtHex k n
      ↔ s.length ≤ k ∧ digitsValue 16 s = n / 16 ^ (k - s.length) := by
  rw [List.prefix_iff_eq_take, List.length_map, map_toLower_eq_fmtHex h]
  constructor
  · intro heq
    have hlen : s.length ≤ k := by
      have := congrArg List.length heq
      simp at this
      omega
    refine ⟨hlen, ?_⟩
    rw [take_fmtHex hlen] at heq
    refine fmtHex_injective (digitsValue_lt h) ?_ heq
    rw [Nat.div_lt_iff_lt_mul (by positivity), ← pow_add, Nat.add_sub_cancel' hlen]
    exact hn
  · rintro ⟨hlen, hvalue⟩
    rw [take_fmtHex hlen, ← hvalue]

end Rust
