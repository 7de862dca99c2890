/-
Runs of a labelled transition system.

A machine has initial states and labelled steps; a trace records every step as
the state before it and its label, so that a property of a step can speak about
both; `latest` is the last thing of a kind that has happened, and `Last` the last
step of a kind.

* `Steps.invariant` — what every step keeps holds along every path;
* `Steps.split`, `Run.split` — a run up to one of its steps, the step, and the rest;
* `Steps.came_from` — the step that has brought something about;
* `Run.induction` — induction over a run, with the trace so far.
-/
import Mathlib.Tactic

/-- A labelled transition system. -/
structure Machine (σ ε : Type*) where
  init : σ → Prop
  step : σ → ε → σ → Prop

namespace Machine

variable {σ ε : Type*} {M : Machine σ ε}

/-- Paths from a state, with the steps taken. -/
inductive Steps (M : Machine σ ε) (s : σ) : List (σ × ε) → σ → Prop
  | refl : Steps M s [] s
  | step {tr : List (σ × ε)} {t u : σ} {e : ε} :
      Steps M s tr t → M.step t e u → Steps M s (tr ++ [(t, e)]) u

/-- Paths from an initial state. -/
def Run (M : Machine σ ε) (tr : List (σ × ε)) (t : σ) : Prop := ∃ s, M.init s ∧ Steps M s tr t

/-- What `f` reads off the last label it reads anything off. -/
def latest {β : Type*} (f : ε → Option β) (tr : List (σ × ε)) : Option β :=
  tr.foldl (fun acc x => (f x.2).or acc) none

@[simp] theorem latest_nil {β : Type*} (f : ε → Option β) : latest f ([] : List (σ × ε)) = none :=
  rfl

@[simp] theorem latest_concat {β : Type*} (f : ε → Option β) (tr : List (σ × ε)) (x : σ × ε) :
    latest f (tr ++ [x]) = (f x.2).or (latest f tr) := by
  simp [latest]

/-- The steps of a path to a state, each with the state that it leads to. -/
def transitions : List (σ × ε) → σ → List (σ × ε × σ)
  | [], _ => []
  | (s, e) :: tr, t => (s, e, (tr.head?.map Prod.fst).getD t) :: transitions tr t

theorem transitions_concat (tr : List (σ × ε)) (s t : σ) (e : ε) :
    transitions (tr ++ [(s, e)]) t = transitions tr s ++ [(s, e, t)] := by
  induction tr with
  | nil => rfl
  | cons x tr ih =>
    rw [List.cons_append, transitions, ih, transitions, List.cons_append]
    cases tr <;> rfl

/-- What has been quiet since one of the elements still is after a quiet one. -/
theorem quiet_concat {α : Type*} {quiet : α → Prop} {before after : List α} {x y : α}
    (h : ∀ z ∈ after, quiet z) (hy : quiet y) :
    before ++ x :: after ++ [y] = before ++ x :: (after ++ [y]) ∧ ∀ z ∈ after ++ [y], quiet z :=
  ⟨by simp, List.forall_mem_append.mpr ⟨h, List.forall_mem_singleton.mpr hy⟩⟩

/-- The last element that has the property for some value has it for this one. -/
def Last {α β : Type*} (P : β → α → Prop) (b : β) (xs : List α) : Prop :=
  ∃ before x after, xs = before ++ x :: after ∧ P b x ∧ ∀ y ∈ after, ∀ c, ¬ P c y

theorem Last.concat {α β : Type*} {P : β → α → Prop} {b : β} {xs : List α} (h : Last P b xs) {x : α}
    (hx : ∀ c, ¬ P c x) : Last P b (xs ++ [x]) := by
  obtain ⟨before, y, after, rfl, hy, hnone⟩ := h
  obtain ⟨hsplit, hnone'⟩ := quiet_concat hnone hx
  exact ⟨before, y, after ++ [x], hsplit, hy, hnone'⟩

theorem Steps.nil_iff {s t : σ} : Steps M s [] t ↔ s = t := by
  constructor
  · intro h
    generalize htr : ([] : List (σ × ε)) = tr at h
    cases h with
    | refl => rfl
    | step _ _ => simp at htr
  · rintro rfl
    exact .refl

theorem Steps.concat_iff {s u : σ} {tr : List (σ × ε)} {x : σ × ε} :
    Steps M s (tr ++ [x]) u ↔ Steps M s tr x.1 ∧ M.step x.1 x.2 u := by
  constructor
  · intro h
    generalize htr : tr ++ [x] = tr' at h
    cases h with
    | refl => simp at htr
    | step hsteps hstep =>
      obtain ⟨rfl, hx⟩ := List.append_inj' htr rfl
      obtain rfl : x = _ := by simpa using hx
      exact ⟨hsteps, hstep⟩
  · rintro ⟨hsteps, hstep⟩
    exact .step hsteps hstep

/-- A property that every step keeps holds along a path. -/
theorem Steps.invariant {P : σ → Prop} (hstep : ∀ t e u, P t → M.step t e u → P u) {s t : σ}
    {tr : List (σ × ε)} (h : Steps M s tr t) (hs : P s) : P t := by
  induction h with
  | refl => exact hs
  | step _ hst ih => exact hstep _ _ _ ih hst

/-- A property that the steps of a path keep holds along it. -/
theorem Steps.invariant_of_mem {P : σ → Prop} {s t : σ} {tr : List (σ × ε)}
    (h : Steps M s tr t) (hstep : ∀ t e u, (t, e) ∈ tr → P t → M.step t e u → P u) (hs : P s) :
    P t := by
  induction h with
  | refl => exact hs
  | step _ hst ih =>
    refine hstep _ _ _ (by simp) (ih fun t e u hmem => hstep t e u (by simp [hmem])) hst

theorem Steps.append {s t u : σ} {xs ys : List (σ × ε)} (hxs : Steps M s xs t)
    (hys : Steps M t ys u) : Steps M s (xs ++ ys) u := by
  induction hys with
  | refl => simpa using hxs
  | step _ hst ih =>
    rw [← List.append_assoc]
    exact .step ih hst

theorem Steps.cons {s t u : σ} {e : ε} {ys : List (σ × ε)} (hstep : M.step s e t)
    (hys : Steps M t ys u) : Steps M s ((s, e) :: ys) u :=
  (Steps.step .refl hstep).append hys

theorem Steps.split {s u : σ} {xs ys : List (σ × ε)} (h : Steps M s (xs ++ ys) u) :
    ∃ t, Steps M s xs t ∧ Steps M t ys u := by
  induction ys using List.reverseRecOn generalizing u with
  | nil => exact ⟨u, by simpa using h, .refl⟩
  | append_singleton ys y ih =>
    rw [← List.append_assoc, Steps.concat_iff] at h
    obtain ⟨t, hxs, hys⟩ := ih h.1
    exact ⟨t, hxs, Steps.concat_iff.mpr ⟨hys, h.2⟩⟩

/-- The first step of a path. -/
theorem Steps.head {s t u : σ} {e : ε} {ys : List (σ × ε)} (h : Steps M s ((t, e) :: ys) u) :
    s = t ∧ ∃ v, M.step t e v ∧ Steps M v ys u := by
  obtain ⟨v, hv, hys⟩ := (show Steps M s ([(t, e)] ++ ys) u from h).split
  obtain ⟨hst, hstep⟩ := Steps.concat_iff.mp (show Steps M s ([] ++ [(t, e)]) v from hv)
  exact ⟨Steps.nil_iff.mp hst, v, hstep, hys⟩

/-- A path up to the first step of a kind, when no other step changes what is viewed. -/
theorem Steps.first_own {β : Type*} (view : σ → β) (own : ε → Bool)
    (hkeep : ∀ s e t, M.step s e t → own e = false → view t = view s) {s u : σ} {tr : List (σ × ε)}
    (h : Steps M s tr u) :
    ((tr.filter fun x => own x.2) = [] ∧ view u = view s)
      ∨ ∃ t e v rest, (tr.filter fun x => own x.2) = (t, e) :: rest.filter (fun x => own x.2)
        ∧ own e = true ∧ view t = view s ∧ M.step t e v ∧ Steps M v rest u := by
  induction tr generalizing s with
  | nil => exact Or.inl ⟨rfl, congrArg view (Steps.nil_iff.mp h).symm⟩
  | cons x rest ih =>
    obtain ⟨t, e⟩ := x
    obtain ⟨rfl, v, hstep, hrest⟩ := h.head
    cases hown : own e with
    | true => exact Or.inr ⟨s, e, v, rest, by simp [hown], hown, rfl, hstep, hrest⟩
    | false =>
      have hfilter : ((s, e) :: rest).filter (fun x => own x.2) = rest.filter fun x => own x.2 := by
        simp [hown]
      rw [hfilter, ← hkeep s e v hstep hown]
      exact ih hrest

/-- What holds at the end but not at the start has come with one of the steps, and all steps since
then have been quiet. -/
theorem Steps.came_from {Q : σ → Prop} {R : σ → ε → Prop} {quiet : ε → Prop}
    (hstep : ∀ s e t, M.step s e t → Q t → R s e ∨ Q s ∧ quiet e) {s t : σ} {tr : List (σ × ε)}
    (h : Steps M s tr t) (hs : ¬ Q s) (ht : Q t) :
    ∃ before u e after, tr = before ++ (u, e) :: after ∧ R u e ∧ ∀ x ∈ after, quiet x.2 := by
  induction h with
  | refl => exact absurd ht hs
  | @step tr t u e _ hst ih =>
    obtain hnow | ⟨hbefore, hquiet⟩ := hstep t e u hst ht
    · exact ⟨tr, t, e, [], rfl, hnow, by simp⟩
    · obtain ⟨before, v, e', after, rfl, hR, hafter⟩ := ih hbefore
      obtain ⟨hsplit, hafter'⟩ := quiet_concat (y := (t, e)) hafter hquiet
      exact ⟨before, v, e', after ++ [(t, e)], hsplit, hR, hafter'⟩

/-- A path up to one of its steps, the step, and the rest. -/
theorem Steps.split_cons {s t u : σ} {e : ε} {xs ys : List (σ × ε)}
    (h : Steps M s (xs ++ (t, e) :: ys) u) :
    Steps M s xs t ∧ ∃ v, M.step t e v ∧ Steps M v ys u := by
  obtain ⟨t', hxs, hys⟩ := h.split
  obtain ⟨rfl, hrest⟩ := hys.head
  exact ⟨hxs, hrest⟩

/-- A run up to one of its steps, the step, and the rest. -/
theorem Run.split {s t : σ} {e : ε} {pre post : List (σ × ε)}
    (h : Run M (pre ++ (s, e) :: post) t) :
    Run M pre s ∧ ∃ u, M.step s e u ∧ Steps M u post t := by
  obtain ⟨s₀, hs₀, hsteps⟩ := h
  obtain ⟨hpre, hrest⟩ := hsteps.split_cons
  exact ⟨⟨s₀, hs₀, hpre⟩, hrest⟩

theorem Run.append {s t : σ} {xs ys : List (σ × ε)} (h : Run M xs s) (hys : Steps M s ys t) :
    Run M (xs ++ ys) t := by
  obtain ⟨s₀, hs₀, hxs⟩ := h
  exact ⟨s₀, hs₀, hxs.append hys⟩

theorem Run.concat {s t : σ} {e : ε} {tr : List (σ × ε)} (h : Run M tr s) (hstep : M.step s e t) :
    Run M (tr ++ [(s, e)]) t :=
  h.append (.step .refl hstep)

/-- Induction over a run, with the trace so far. -/
theorem Run.induction {P : List (σ × ε) → σ → Prop} (hinit : ∀ s, M.init s → P [] s)
    (hstep : ∀ tr s e t, Run M tr s → P tr s → M.step s e t → P (tr ++ [(s, e)]) t)
    {tr : List (σ × ε)} {t : σ} (h : Run M tr t) : P tr t := by
  obtain ⟨s₀, hs₀, hsteps⟩ := h
  induction hsteps with
  | refl => exact hinit _ hs₀
  | step hsteps hst ih => exact hstep _ _ _ _ ⟨s₀, hs₀, hsteps⟩ ih hst

/-- What every step from a reachable state keeps holds along the rest of a run. -/
theorem Run.steps_invariant {P : σ → Prop}
    (hstep : ∀ tr s e t, Run M tr s → P s → M.step s e t → P t) {pre ys : List (σ × ε)} {s t : σ}
    (h : Run M pre s) (hys : Steps M s ys t) (hs : P s) : P t := by
  induction hys with
  | refl => exact hs
  | step hys hst ih => exact hstep _ _ _ _ (h.append hys) ih hst

/-- A property of states that holds initially and is kept by every step. -/
theorem Run.invariant {P : σ → Prop} (hinit : ∀ s, M.init s → P s)
    (hstep : ∀ s e t, P s → M.step s e t → P t) {tr : List (σ × ε)} {t : σ} (h : Run M tr t) :
    P t := by
  obtain ⟨s₀, hs₀, hsteps⟩ := h
  exact hsteps.invariant hstep (hinit s₀ hs₀)

end Machine
