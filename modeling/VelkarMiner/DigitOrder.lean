/-
The order of numerals.

Numerals of one length over one base, written highest digit first, are ordered by
the first digits that differ.  This is the order of the numbers they denote
(`compareLex_ofDigits`), and it does not depend on the symbols for the digits as
long as these are ordered like the digits (`compareLex_numerals`).  Digits stored
lowest first are compared from the end (`compareLex_reverse`).
-/
import Mathlib.Data.Nat.Digits.Defs
import Mathlib.Tactic.Linarith

namespace DigitOrder

variable {α β : Type*}

/-- One step of the comparison decides unless the leading digits agree. -/
theorem compare_then_compare {B a b r s : ℕ} (hr : r < B) (hs : s < B) :
    (compare a b).then (compare r s) = compare (r + B * a) (s + B * b) := by
  rcases lt_trichotomy a b with h | rfl | h
  · have : r + B * a < s + B * b := by nlinarith
    rw [compare_lt_iff_lt.mpr h, compare_lt_iff_lt.mpr this]
    rfl
  · rw [compare_eq_iff_eq.mpr rfl]
    rcases lt_trichotomy r s with h | rfl | h
    · rw [compare_lt_iff_lt.mpr h, compare_lt_iff_lt.mpr (by omega)]
      rfl
    · simp
    · rw [compare_gt_iff_gt.mpr h, compare_gt_iff_gt.mpr (by omega)]
      rfl
  · have : s + B * b < r + B * a := by nlinarith
    rw [compare_gt_iff_gt.mpr h, compare_gt_iff_gt.mpr this]
    rfl

/-- A numeral denotes less than the place in front of it. -/
theorem ofDigits_reverse_lt {B : ℕ} (hB : 1 < B) {xs : List ℕ} (hx : ∀ d ∈ xs, d < B) :
    Nat.ofDigits B xs.reverse < B ^ xs.length := by
  rw [← List.length_reverse]
  exact Nat.ofDigits_lt_base_pow_length hB fun d hd => hx d (List.mem_reverse.mp hd)

theorem ofDigits_reverse_cons (B x : ℕ) (xs : List ℕ) :
    Nat.ofDigits B (x :: xs).reverse = Nat.ofDigits B xs.reverse + B ^ xs.length * x := by
  rw [List.reverse_cons, Nat.ofDigits_append, Nat.ofDigits_singleton, List.length_reverse]

/-- Numerals are compared like the numbers they denote. -/
theorem compareLex_ofDigits {B : ℕ} (hB : 1 < B) {xs ys : List ℕ} (hlen : xs.length = ys.length)
    (hx : ∀ d ∈ xs, d < B) (hy : ∀ d ∈ ys, d < B) :
    xs.compareLex compare ys = compare (Nat.ofDigits B xs.reverse) (Nat.ofDigits B ys.reverse) := by
  induction xs generalizing ys with
  | nil =>
    obtain rfl := List.length_eq_zero_iff.mp hlen.symm
    rfl
  | cons x xs ih =>
    obtain ⟨y, ys, rfl⟩ := List.exists_cons_of_length_eq_add_one hlen.symm
    have hlen' : xs.length = ys.length := Nat.succ.inj hlen
    have hx' : ∀ d ∈ xs, d < B := fun d hd => hx d (List.mem_cons_of_mem x hd)
    have hy' : ∀ d ∈ ys, d < B := fun d hd => hy d (List.mem_cons_of_mem y hd)
    have hlow : Nat.ofDigits B ys.reverse < B ^ xs.length := hlen' ▸ ofDigits_reverse_lt hB hy'
    rw [List.compareLex_cons_cons, ih hlen' hx' hy', ofDigits_reverse_cons, ofDigits_reverse_cons,
      ← hlen']
    exact compare_then_compare (ofDigits_reverse_lt hB hx') hlow

/-- A map that keeps the order of the entries keeps the order of the lists. -/
theorem compareLex_map {cmp : α → α → Ordering} {cmp' : β → β → Ordering} {f : α → β}
    {xs ys : List α} (h : ∀ x ∈ xs, ∀ y ∈ ys, cmp' (f x) (f y) = cmp x y) :
    (xs.map f).compareLex cmp' (ys.map f) = xs.compareLex cmp ys := by
  induction xs generalizing ys with
  | nil => cases ys <;> rfl
  | cons x xs ih =>
    cases ys with
    | nil => rfl
    | cons y ys =>
      have htail : ∀ x ∈ xs, ∀ y ∈ ys, cmp' (f x) (f y) = cmp x y := fun x hx y hy =>
        h x (List.mem_cons_of_mem _ hx) y (List.mem_cons_of_mem _ hy)
      rw [List.map_cons, List.map_cons, List.compareLex_cons_cons, List.compareLex_cons_cons,
        h x List.mem_cons_self y List.mem_cons_self, ih htail]

/-- Numerals in symbols that are ordered like their digits. -/
theorem compareLex_numerals {B : ℕ} (hB : 1 < B) {cmp : α → α → Ordering} {digit : α → ℕ}
    {s t : List α} (hlen : s.length = t.length) (hs : ∀ x ∈ s, digit x < B)
    (ht : ∀ y ∈ t, digit y < B)
    (hcmp : ∀ x ∈ s, ∀ y ∈ t, cmp x y = compare (digit x) (digit y)) :
    s.compareLex cmp t
      = compare (Nat.ofDigits B (s.map digit).reverse) (Nat.ofDigits B (t.map digit).reverse) := by
  have hdigits : ∀ {u : List α}, (∀ x ∈ u, digit x < B) → ∀ d ∈ u.map digit, d < B := by
    intro u hu d hd
    obtain ⟨x, hx, rfl⟩ := List.mem_map.mp hd
    exact hu x hx
  have hlen' : (s.map digit).length = (t.map digit).length := by
    rw [List.length_map, List.length_map, hlen]
  rw [← compareLex_ofDigits hB hlen' (hdigits hs) (hdigits ht)]
  exact (compareLex_map fun x hx y hy => (hcmp x hx y hy).symm).symm

/-- The same for digits that are stored lowest first. -/
theorem compareLex_reverse {B : ℕ} (hB : 1 < B) {cmp : α → α → Ordering} {digit : α → ℕ}
    {s t : List α} (hlen : s.length = t.length) (hs : ∀ x ∈ s, digit x < B)
    (ht : ∀ y ∈ t, digit y < B)
    (hcmp : ∀ x ∈ s, ∀ y ∈ t, cmp x y = compare (digit x) (digit y)) :
    s.reverse.compareLex cmp t.reverse
      = compare (Nat.ofDigits B (s.map digit)) (Nat.ofDigits B (t.map digit)) := by
  have hnumerals := compareLex_numerals hB
    (by rw [List.length_reverse, List.length_reverse, hlen] : s.reverse.length = t.reverse.length)
    (fun x hx => hs x (List.mem_reverse.mp hx)) (fun y hy => ht y (List.mem_reverse.mp hy))
    fun x hx y hy => hcmp x (List.mem_reverse.mp hx) y (List.mem_reverse.mp hy)
  rwa [List.map_reverse, List.map_reverse, List.reverse_reverse, List.reverse_reverse] at hnumerals

end DigitOrder
