/-
Workers that look at a slot before they go on.

A poller works in units, and at the end of a unit it owes a look at the slot: it
does not work again before it has taken it.  What has left the slot is therefore
worked on in one more unit at most.

* `Poller.Step` — what a poller and the owner of its slot may do;
* `gone_of_run` — what has left the slot stays out;
* `prompt_of_poller` — a machine whose steps are steps of a poller is prompt.
-/
import VelkarMiner.Runs
import VelkarMiner.WatchSwap

variable {α σ ε : Type*}

/-! ### The slot of a machine -/

theorem Slot.Gone.step {p q : Slot α} {k : ℕ} (h : p.Gone k)
    (hq : (∃ val, q = p.swap val) ∨ q = p) : q.Gone k := by
  obtain ⟨val, rfl⟩ | rfl := hq
  · exact h.swap val
  · exact h

/-- What is swapped out of the slot of a machine stays out. -/
theorem gone_of_run {M : Machine σ ε} (slot : σ → Slot α)
    (hinit : ∀ s, M.init s → slot s = Slot.empty)
    (hslot : ∀ tr s e t, M.Run tr s → M.step s e t →
      (∃ val, slot t = (slot s).swap val) ∨ slot t = slot s)
    {pre mid : List (σ × ε)} {s t u : σ} {e : ε} (hrun : M.Run pre s) (hstep : M.step s e t)
    (hswap : ∃ val, slot t = (slot s).swap val) {i : Instance α} (hi : (slot s).inner = some i)
    (hmid : M.Steps t mid u) : (slot u).Gone i.stamp := by
  have hnumbered : (slot s).Numbered (slot s).inner := by
    refine Machine.Run.induction (P := fun _ s => (slot s).Numbered (slot s).inner) ?_ ?_ hrun
    · intro s hs
      rw [hinit s hs]
      exact Slot.numbered_none _
    · intro tr s e t htr hs hst
      obtain ⟨val, hval⟩ | hsame := hslot tr s e t htr hst
      · rw [hval]
        exact Slot.numbered_swap _ val
      · rw [hsame]
        exact hs
  obtain ⟨val, hval⟩ := hswap
  refine Machine.Run.steps_invariant (P := fun s => (slot s).Gone i.stamp)
    (fun tr s e t htr hs hst => hs.step (hslot tr s e t htr hst)) (hrun.concat hstep) hmid ?_
  rw [hval]
  exact Slot.gone_of_swap hnumbered hi val

/-! ### Pollers -/

/-- A slot and a worker's view of it.  While `due`, the worker looks before it works. -/
structure Poller (α : Type*) where
  slot : Slot α
  cached : Option (Instance α)
  unit : ℕ
  due : Prop

namespace Poller

inductive Step : Poller α → Poller α → Prop
  | swap (p : Poller α) (val : Option α) : Step p { p with slot := p.slot.swap val }
  | look (p : Poller α) (due : Prop) :
      Step p { p with cached := p.slot.getChanged p.cached, due := due }
  | rest (p : Poller α) (due : Prop) (h : p.due → due) : Step p { p with due := due }
  | finish (p : Poller α) (due : Prop) (h : due) : Step p { p with unit := p.unit + 1, due := due }

/-- Instance `k` has left the slot, and past unit `u` the worker does not hold it, or
looks first. -/
structure Past (p : Poller α) (k u : ℕ) : Prop where
  gone : p.slot.Gone k
  past : p.unit ≤ u ∨ p.due ∨ ¬ Slot.Holds p.cached k

theorem Step.slot {p q : Poller α} (h : Step p q) :
    (∃ val, q.slot = p.slot.swap val) ∨ q.slot = p.slot := by
  cases h with
  | swap val => exact Or.inl ⟨val, rfl⟩
  | look | rest | finish => exact Or.inr rfl

theorem Step.past {p q : Poller α} (h : Step p q) {k u : ℕ} (hp : p.Past k u) : q.Past k u := by
  refine ⟨hp.gone.step h.slot, ?_⟩
  cases h with
  | swap val => exact hp.past
  | look due => exact Or.inr (Or.inr (hp.gone.not_holds_of_ptr (Slot.ptr_getChanged ..)))
  | rest due h => exact hp.past.imp_right (Or.imp_left h)
  | finish due h => exact Or.inr (Or.inl h)

end Poller

/-- If an instance is swapped out for another one before the worker does some work, the worker
does not work on the instance in a later unit. -/
def Prompt (view : σ → Poller α) (swaps works : ε → Prop) (workOf : ε → Option (Instance α))
    (tr : List (σ × ε)) : Prop :=
  ∀ pre s₀ e₀ mid s₁ e₁ mid' s₂ e₂ post i j,
    tr = pre ++ (s₀, e₀) :: (mid ++ (s₁, e₁) :: (mid' ++ (s₂, e₂) :: post)) →
    swaps e₀ → (view s₀).slot.inner = some i → works e₁ → workOf e₂ = some j →
    (view s₁).unit < (view s₂).unit → j.stamp ≠ i.stamp

/-- A machine whose steps are steps of a poller, and which works only on the instance the poller
has seen last and when no look is due, is prompt. -/
theorem prompt_of_poller {M : Machine σ ε} {view : σ → Poller α} {swaps works : ε → Prop}
    {workOf : ε → Option (Instance α)} (hinit : ∀ s, M.init s → (view s).slot = Slot.empty)
    (hstep : ∀ tr s e t, M.Run tr s → M.step s e t → Poller.Step (view s) (view t))
    (hswap : ∀ s e t, M.step s e t → swaps e → ∃ val, (view t).slot = (view s).slot.swap val)
    (hwork : ∀ tr s e t j, M.Run tr s → M.step s e t → workOf e = some j →
      ¬ (view s).due ∧ Slot.Holds (view s).cached j.stamp)
    {tr : List (σ × ε)} {t : σ} (h : M.Run tr t) : Prompt view swaps works workOf tr := by
  rintro pre s₀ e₀ mid s₁ e₁ mid' s₂ e₂ post i j rfl hs hi - hj hunit hstamp
  obtain ⟨hrun₀, t₀, hstep₀, hpath₀⟩ := h.split
  obtain ⟨hpath₁, t₁, hstep₁, hpath₂⟩ := hpath₀.split_cons
  obtain ⟨hpath₂, t₂, hstep₂, -⟩ := hpath₂.split_cons
  -- the instance has left the slot when the worker works in the earlier unit
  have hgone : (view s₁).slot.Gone i.stamp :=
    gone_of_run (fun s => (view s).slot) hinit
      (fun tr s e t hrun hst => (hstep tr s e t hrun hst).slot) hrun₀ hstep₀
      (hswap s₀ e₀ t₀ hstep₀ hs) hi hpath₁
  have hrun₁ := (hrun₀.concat hstep₀).append hpath₁
  -- and from there on it is past that unit
  have hpast : (view s₂).Past i.stamp (view s₁).unit := by
    refine Machine.Run.steps_invariant (P := fun s => (view s).Past i.stamp (view s₁).unit)
      (fun tr s e t hrun hs hst => (hstep tr s e t hrun hst).past hs) (hrun₁.concat hstep₁)
      hpath₂ ?_
    exact (hstep _ _ _ _ hrun₁ hstep₁).past ⟨hgone, Or.inl le_rfl⟩
  have hrun₂ := (hrun₁.concat hstep₁).append hpath₂
  obtain ⟨hdue, hholds⟩ := hwork _ _ _ _ j hrun₂ hstep₂ hj
  obtain hle | hd | hnot := hpast.past
  · omega
  · exact hdue hd
  · exact hnot (hstamp ▸ hholds)
