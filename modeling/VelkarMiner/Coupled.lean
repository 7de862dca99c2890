/-
Machines beside each other.

A family takes the steps of its members one at a time; of two coupled machines each
may move alone or both at once, as far as a relation allows it.  What a run of the
whole does to one of its parts is a run of that part.

* `Run.part` — a member of a family;
* `Run.left`, `Run.right` — the two sides of a coupling.
-/
import VelkarMiner.Runs

namespace Machine

variable {κ σ τ ε δ : Type*}

/-! ### A family -/

section Family

variable [DecidableEq κ]

/-- A family of machines, of which one moves at a time. -/
def family (M : κ → Machine σ ε) : Machine (κ → σ) (κ × ε) where
  init s := ∀ k, (M k).init (s k)
  step s e t := ∃ u, (M e.1).step (s e.1) e.2 u ∧ t = Function.update s e.1 u

/-- What a member has done. -/
def part (k : κ) (tr : List ((κ → σ) × κ × ε)) : List (σ × ε) :=
  tr.filterMap fun x => if x.2.1 = k then some (x.1 k, x.2.2) else none

@[simp] theorem part_append (k : κ) (xs ys : List ((κ → σ) × κ × ε)) :
    part k (xs ++ ys) = part k xs ++ part k ys :=
  List.filterMap_append

theorem part_self (s : κ → σ) (k : κ) (e : ε) : part k [(s, k, e)] = [(s k, e)] := by
  simp [part]

theorem part_of_ne (s : κ → σ) {k l : κ} (h : l ≠ k) (e : ε) : part k [(s, l, e)] = [] := by
  simp [part, h]

/-- A step of a family moves one member and leaves the others where they are. -/
theorem family_step_cases {M : κ → Machine σ ε} {s t : κ → σ} {e : κ × ε}
    (h : (family M).step s e t) (k : κ) :
    e.1 = k ∧ (M k).step (s k) e.2 (t k) ∨ e.1 ≠ k ∧ t k = s k := by
  obtain ⟨u, hstep, rfl⟩ := h
  by_cases hk : e.1 = k
  · subst hk
    rw [Function.update_self]
    exact Or.inl ⟨rfl, hstep⟩
  · exact Or.inr ⟨hk, Function.update_of_ne (Ne.symm hk) _ _⟩

theorem Run.part {M : κ → Machine σ ε} {tr : List ((κ → σ) × κ × ε)} {s : κ → σ}
    (h : (family M).Run tr s) (k : κ) : (M k).Run (part k tr) (s k) := by
  refine h.induction (P := fun tr s => (M k).Run (Machine.part k tr) (s k)) ?_ ?_
  · exact fun s hs => ⟨s k, hs k, .refl⟩
  · intro tr s e t _ ih hstep
    rw [part_append]
    obtain ⟨rfl, hmove⟩ | ⟨hother, hsame⟩ := family_step_cases hstep k
    · rw [part_self]
      exact ih.concat hmove
    · rw [part_of_ne s hother, List.append_nil, hsame]
      exact ih

end Family

/-! ### A coupling -/

/-- A step, or none. -/
def Moves (M : Machine σ ε) (s : σ) : Option ε → σ → Prop
  | some e, t => M.step s e t
  | none, t => t = s

/-- Two machines, of which each moves alone or both together. -/
def coupled (M : Machine σ ε) (N : Machine τ δ)
    (together : σ × τ → Option ε → Option δ → σ × τ → Prop) :
    Machine (σ × τ) (Option ε × Option δ) where
  init s := M.init s.1 ∧ N.init s.2
  step s e t := M.Moves s.1 e.1 t.1 ∧ N.Moves s.2 e.2 t.2 ∧ together s e.1 e.2 t

/-- What the first machine has done. -/
def left (tr : List ((σ × τ) × Option ε × Option δ)) : List (σ × ε) :=
  tr.filterMap fun x => x.2.1.map fun e => (x.1.1, e)

/-- What the second machine has done. -/
def right (tr : List ((σ × τ) × Option ε × Option δ)) : List (τ × δ) :=
  tr.filterMap fun x => x.2.2.map fun d => (x.1.2, d)

section Coupled

variable {M : Machine σ ε} {N : Machine τ δ}
  {together : σ × τ → Option ε → Option δ → σ × τ → Prop}

@[simp] theorem left_concat (tr : List ((σ × τ) × Option ε × Option δ)) (s : σ × τ)
    (e : Option ε) (d : Option δ) :
    left (tr ++ [(s, e, d)]) = left tr ++ (e.map fun e => (s.1, e)).toList := by
  cases e <;> simp [left]

@[simp] theorem right_concat (tr : List ((σ × τ) × Option ε × Option δ)) (s : σ × τ)
    (e : Option ε) (d : Option δ) :
    right (tr ++ [(s, e, d)]) = right tr ++ (d.map fun d => (s.2, d)).toList := by
  cases d <;> simp [right]

theorem Run.moves {tr : List (σ × ε)} {s t : σ} (h : M.Run tr s) {e : Option ε}
    (hmove : M.Moves s e t) : M.Run (tr ++ (e.map fun e => (s, e)).toList) t := by
  cases e with
  | none =>
    obtain rfl : t = s := hmove
    simpa using h
  | some e => exact h.concat hmove

theorem Run.left {tr : List ((σ × τ) × Option ε × Option δ)} {s : σ × τ}
    (h : (coupled M N together).Run tr s) : M.Run (left tr) s.1 := by
  refine h.induction (P := fun tr s => M.Run (Machine.left tr) s.1) ?_ ?_
  · exact fun s hs => ⟨s.1, hs.1, .refl⟩
  · rintro tr s ⟨e, d⟩ t _ ih ⟨hmove, -, -⟩
    rw [left_concat]
    exact ih.moves hmove

theorem Run.right {tr : List ((σ × τ) × Option ε × Option δ)} {s : σ × τ}
    (h : (coupled M N together).Run tr s) : N.Run (right tr) s.2 := by
  refine h.induction (P := fun tr s => N.Run (Machine.right tr) s.2) ?_ ?_
  · exact fun s hs => ⟨s.2, hs.2, .refl⟩
  · rintro tr s ⟨e, d⟩ t _ ih ⟨-, hmove, -⟩
    rw [right_concat]
    exact ih.moves hmove

end Coupled

end Machine
