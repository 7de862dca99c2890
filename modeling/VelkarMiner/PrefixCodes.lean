/-
Uniquely decodable codes.

A code relates values to words over an alphabet.  It is a prefix code up to a
relation `r` when whatever follows, the word of a value can be told from the
word of another one that is not `r`-related to it.  So the words determine
the value up to `r`, and no word is a proper prefix of another.

* `PrefixCode.of_length` — words of one length;
* `PrefixCode.seq`, `PrefixCode.map` — pairs, and codes of a part of a value;
* `PrefixCode.counted` — lists behind their length.
-/
import Mathlib.Tactic

/-- A code, as the relation between a value and its word. -/
abbrev Code (α β : Type*) := α → List β → Prop

/-- The word determines the value up to `r`, and where the next word begins. -/
def PrefixCode {α β : Type*} (enc : Code α β) (r : α → α → Prop) : Prop :=
  ∀ ⦃a b x y s t⦄, enc a x → enc b y → x ++ s = y ++ t → r a b ∧ s = t

variable {α β γ δ : Type*}

namespace Code

/-- One value after another. -/
def seq (enc₁ : Code α β) (enc₂ : Code γ β) : Code (α × γ) β :=
  fun p z => ∃ x y, enc₁ p.1 x ∧ enc₂ p.2 y ∧ z = x ++ y

/-- The words of a list, one after another. -/
inductive Concat (enc : Code α β) : List α → List β → Prop
  | nil : Concat enc [] []
  | cons {a : α} {as : List α} {x y : List β} (ha : enc a x) (has : Concat enc as y) :
      Concat enc (a :: as) (x ++ y)

theorem Concat.map {enc : Code α β} {f : δ → α} {ds : List δ} {x : List β}
    (h : Concat (fun d => enc (f d)) ds x) : Concat enc (ds.map f) x := by
  induction h with
  | nil => exact .nil
  | cons hd _ ih => exact .cons hd ih

/-- A list behind its length. -/
def counted (count : Code ℕ β) (enc : Code α β) : Code (List α) β :=
  fun as z => ∃ x y, count as.length x ∧ Concat enc as y ∧ z = x ++ y

end Code

namespace PrefixCode

open Code

variable {enc : Code α β} {r : α → α → Prop}

/-- No word is a proper prefix of another. -/
theorem prefix_free (h : PrefixCode enc r) {a b : α} {x y : List β} (ha : enc a x) (hb : enc b y)
    (hxy : x <+: y) : x = y := by
  obtain ⟨s, hs⟩ := hxy
  obtain ⟨-, rfl⟩ := h ha hb (s := s) (t := []) (by rw [hs, List.append_nil])
  rwa [List.append_nil] at hs

/-- Equal words come from related values. -/
theorem of_eq (h : PrefixCode enc r) {a b : α} {x : List β} (ha : enc a x) (hb : enc b x) :
    r a b :=
  (h ha hb rfl : r a b ∧ ([] : List β) = []).1

theorem of_length {n : ℕ} (hlen : ∀ a x, enc a x → x.length = n)
    (hinj : ∀ a b x, enc a x → enc b x → r a b) : PrefixCode enc r := by
  intro a b x y s t ha hb hxy
  obtain ⟨rfl, hst⟩ := List.append_inj hxy ((hlen a x ha).trans (hlen b y hb).symm)
  exact ⟨hinj a b x ha hb, hst⟩

theorem seq {enc₂ : Code γ β} {r₂ : γ → γ → Prop} (h : PrefixCode enc r)
    (h₂ : PrefixCode enc₂ r₂) :
    PrefixCode (Code.seq enc enc₂) fun p q => r p.1 q.1 ∧ r₂ p.2 q.2 := by
  rintro p q _ _ s t ⟨x, x₂, hx, hx₂, rfl⟩ ⟨y, y₂, hy, hy₂, rfl⟩ heq
  rw [List.append_assoc, List.append_assoc] at heq
  obtain ⟨hr, heq⟩ := h hx hy heq
  obtain ⟨hr₂, hst⟩ := h₂ hx₂ hy₂ heq
  exact ⟨⟨hr, hr₂⟩, hst⟩

/-- The code of a part of a value. -/
theorem map (h : PrefixCode enc r) (f : δ → α) :
    PrefixCode (fun d => enc (f d)) fun d e => r (f d) (f e) :=
  fun _ _ _ _ _ _ ha hb heq => h ha hb heq

/-- Lists of the same length. -/
theorem concat (h : PrefixCode enc r) {as bs : List α} {x y s t : List β}
    (hlen : as.length = bs.length) (ha : Concat enc as x) (hb : Concat enc bs y)
    (heq : x ++ s = y ++ t) : List.Forall₂ r as bs ∧ s = t := by
  induction ha generalizing bs y with
  | nil =>
    obtain rfl := List.length_eq_zero_iff.mp hlen.symm
    cases hb
    exact ⟨.nil, heq⟩
  | cons ha has ih =>
    cases hb with
    | nil => cases hlen
    | cons hb hbs =>
      rw [List.append_assoc, List.append_assoc] at heq
      obtain ⟨hr, heq⟩ := h ha hb heq
      obtain ⟨hrs, hst⟩ := ih (Nat.succ.inj hlen) hbs heq
      exact ⟨.cons hr hrs, hst⟩

theorem counted {count : Code ℕ β} (hcount : PrefixCode count (· = ·)) (h : PrefixCode enc r) :
    PrefixCode (Code.counted count enc) (List.Forall₂ r) := by
  rintro as bs _ _ s t ⟨x, x₂, hx, hx₂, rfl⟩ ⟨y, y₂, hy, hy₂, rfl⟩ heq
  rw [List.append_assoc, List.append_assoc] at heq
  obtain ⟨hlen, heq⟩ := hcount hx hy heq
  exact h.concat hlen hx₂ hy₂ heq

/-- The relation may be coarsened. -/
theorem mono {r' : α → α → Prop} (h : PrefixCode enc r) (hr : ∀ a b, r a b → r' a b) :
    PrefixCode enc r' :=
  fun _ _ _ _ _ _ ha hb heq => ⟨hr _ _ (h ha hb heq).1, (h ha hb heq).2⟩

end PrefixCode
