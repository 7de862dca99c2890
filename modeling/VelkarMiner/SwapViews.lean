/-
What the handles of a slot see (`src/swap_rust.rs`).

Every handle starts with what it inherits and goes on with what it reports as
changes.  Since nothing that a handle has cached loses its address, a report is
always about something that was stored later.

* `stored_getElem` — whatever is referred to has been stored, at its index;
* `InOrder` — a handle sees a subsequence of what has been stored;
* `observers_in_order` — and no change is reported only when there is none;
* `cached_getChanged` — a handle gets what the numbered slot of `WatchSwap.lean` gives it.
-/
import VelkarMiner.SwapThreads
import VelkarMiner.WatchSwap

namespace Watch

variable {ι η α : Type}

/-! ### What has been stored, and what has been seen -/

def swapped : Event ι η α → Option (Stored α)
  | .swap _ x => some x
  | _ => none

/-- The thread that takes a step. -/
def Event.thread : Event ι η α → Option ι
  | .alloc t | .swap t _ | .load t _ _ | .report t _ _ | .same t _ | .go t => some t
  | .clone _ _ _ | .drop _ => none

/-- The contents of the slot so far, in order. -/
def stored (s₀ : World ι η α) (tr : List (World ι η α × Event ι η α)) : List (Stored α) :=
  s₀.inner :: tr.filterMap fun y => swapped y.2

theorem stored_concat (s₀ : World ι η α) (tr : List (World ι η α × Event ι η α))
    (s : World ι η α) (e : Event ι η α) :
    stored s₀ (tr ++ [(s, e)]) = stored s₀ tr ++ (swapped e).toList := by
  simp only [stored, List.filterMap_append, List.filterMap_cons, List.filterMap_nil]
  cases swapped e <;> rfl

variable [DecidableEq η]

/-- What a handle reports as a change, or is cloned with. -/
def viewed (h : η) : Event ι η α → Option (Stored α)
  | .report _ h' x => if h' = h then some x else none
  | .clone _ h' x => if h' = h then some x else none
  | _ => none

def initialView (s₀ : World ι η α) (h : η) : List (Stored α) :=
  match s₀.handles h with
  | .live cached => [cached]
  | _ => []

/-- What a handle has inherited and reported so far. -/
def views (s₀ : World ι η α) (h : η) (tr : List (World ι η α × Event ι η α)) : List (Stored α) :=
  initialView s₀ h ++ tr.filterMap fun y => viewed h y.2

theorem views_concat (s₀ : World ι η α) (h : η) (tr : List (World ι η α × Event ι η α))
    (s : World ι η α) (e : Event ι η α) :
    views s₀ h (tr ++ [(s, e)]) = views s₀ h tr ++ (viewed h e).toList := by
  rw [views, views, List.filterMap_append, List.append_assoc]
  simp only [List.filterMap_cons, List.filterMap_nil]
  cases viewed h e <;> rfl

variable [DecidableEq ι]

/-! ### Indices -/

section

variable {s₀ s : World ι η α} {tr : List (World ι η α × Event ι η α)}

/-- The slot holds the last thing that has been stored, and whatever is referred to has been
stored, at its index. -/
theorem stored_getElem (h₀ : Initial s₀) (h : (machine ι η α).Steps s₀ tr s) :
    (stored s₀ tr).length = s.inner.index + 1
      ∧ ∀ x, s.Holds x → (stored s₀ tr)[x.index]? = some x := by
  induction h with
  | refl =>
    refine ⟨by simp [stored, h₀.index_eq], fun x hx => ?_⟩
    rw [h₀.holds hx, h₀.index_eq]
    rfl
  | @step tr s s' e _ hstep ih =>
    obtain ⟨hlength, hget⟩ := ih
    rw [stored_concat]
    have hold : ∀ x, s.Holds x → (stored s₀ tr ++ (swapped e).toList)[x.index]? = some x := by
      intro x hx
      have hlt := (List.getElem?_eq_some_iff.mp (hget x hx)).1
      rw [List.getElem?_append_left hlt]
      exact hget x hx
    by_cases hswap : ∃ t x, e = .swap t x
    · obtain ⟨t, x, rfl⟩ := hswap
      obtain ⟨hx, hinner, -⟩ := swap_cases hstep
      have hindex : x.index = s.inner.index + 1 := by rw [hx]
      refine ⟨by simp [swapped, hlength, hinner, hindex], fun y hy => ?_⟩
      obtain hy | ⟨u, he⟩ := holds_cases hstep hy
      · exact hold y hy
      · cases he
        rw [hindex, ← hlength]
        simp [swapped]
    · have hnone : swapped e = none := by
        cases e with
        | swap t x => exact absurd ⟨t, x, rfl⟩ hswap
        | _ => rfl
      have hinner : s'.inner = s.inner := by
        cases hstep with
        | swap t new => exact absurd ⟨t, _, rfl⟩ hswap
        | _ => rfl
      refine ⟨by rw [hnone, hinner]; simpa using hlength, fun y hy => ?_⟩
      obtain hy | ⟨u, he⟩ := holds_cases hstep hy
      · exact hold y hy
      · exact absurd ⟨u, y, he⟩ hswap

theorem index_le (h₀ : Initial s₀) (h : (machine ι η α).Steps s₀ tr s) {x : Stored α}
    (hx : s.Holds x) : x.index ≤ s.inner.index := by
  obtain ⟨hlength, hget⟩ := stored_getElem h₀ h
  have hlt := (List.getElem?_eq_some_iff.mp (hget x hx)).1
  omega

/-- References with the same index are the same. -/
theorem eq_of_index_eq (h₀ : Initial s₀) (h : (machine ι η α).Steps s₀ tr s) {x y : Stored α}
    (hx : s.Holds x) (hy : s.Holds y) (hxy : x.index = y.index) : x = y := by
  have hget := (stored_getElem h₀ h).2
  have heq := hget x hx
  rw [hxy, hget y hy] at heq
  exact (Option.some.inj heq).symm

/-! ### Handles -/

/-- What a step does to a handle. -/
inductive Seen (s : World ι η α) (h : η) (e : Event ι η α) (s' : World ι η α) : Prop
  | same (hviewed : viewed h e = none)
      (hlive : ∀ cached, s'.handles h = .live cached → s.handles h = .live cached)
      (hunborn : s'.handles h = .unborn → s.handles h = .unborn)
  | report (t : ι) (cached guard : Stored α) (waiting : Bool) (he : e = .report t h guard)
      (hpc : s.threads t = .compare h guard waiting) (hlive : s.handles h = .live cached)
      (hptr : cached.ptr ≠ guard.ptr) (hlive' : s'.handles h = .live guard)
  | clone (h₀ : η) (cached : Stored α) (he : e = .clone h₀ h cached)
      (hlive : s.handles h₀ = .live cached) (hunborn : s.handles h = .unborn)
      (hlive' : s'.handles h = .live cached)

theorem seen_of_step {e : Event ι η α} {s' : World ι η α} (hstep : Step s e s') (h : η) :
    Seen s h e s' := by
  cases hstep with
  | changed t k cached guard waiting hpc hlive hptr =>
    obtain rfl | hne := eq_or_ne h k
    · exact .report t cached guard waiting rfl hpc hlive hptr (Function.update_self (a := h) ..)
    · have hsame : Function.update s.handles k (.live guard) h = s.handles h :=
        Function.update_of_ne hne ..
      exact .same (if_neg hne.symm) (fun c hc => hsame.symm.trans hc) fun hu => hsame.symm.trans hu
  | clone k k' cached hlive hfree hnew =>
    obtain rfl | hne := eq_or_ne h k'
    · exact .clone k cached rfl hlive hnew (Function.update_self (a := h) ..)
    · have hsame : Function.update s.handles k' (.live cached) h = s.handles h :=
        Function.update_of_ne hne ..
      exact .same (if_neg hne.symm) (fun c hc => hsame.symm.trans hc) fun hu => hsame.symm.trans hu
  | drop k cached hlive hfree =>
    refine .same rfl (fun c hc => ?_) fun hu => ?_
    · obtain rfl | hne := eq_or_ne h k
      · cases (Function.update_self (a := h) ..).symm.trans hc
      · exact (Function.update_of_ne hne ..).symm.trans hc
    · obtain rfl | hne := eq_or_ne h k
      · cases (Function.update_self (a := h) ..).symm.trans hu
      · exact (Function.update_of_ne hne ..).symm.trans hu
  | _ => exact .same rfl (fun _ hc => hc) fun hu => hu

/-- A guard comes from a load of the slot. -/
theorem guard_cases {e : Event ι η α} {s' : World ι η α} (hstep : Step s e s') {t : ι} {h : η}
    {guard : Stored α} {waiting : Bool} (hpc : s'.threads t = .compare h guard waiting) :
    s.threads t = .compare h guard waiting ∧ e.thread ≠ some t
      ∨ e = .load t h guard ∧ guard = s.inner ∧ s'.handles = s.handles := by
  have hset : ∀ {u : ι} {pc : Pc η α} {r : World ι η α}, e.thread = some u →
      (∀ v, r.threads v = s.threads v ∨ r.threads v = (s.threads v).notified) →
      (∀ k g b, pc ≠ .compare k g b) → (r.set u pc).threads t = .compare h guard waiting →
      s.threads t = .compare h guard waiting ∧ e.thread ≠ some t := by
    intro u pc r he hr hne hpc
    obtain rfl | htu := eq_or_ne t u
    · rw [World.set_threads_self] at hpc
      exact absurd hpc (hne h guard waiting)
    · rw [World.set_threads_of_ne _ htu] at hpc
      refine ⟨?_, by rw [he]; simpa using htu.symm⟩
      obtain hv | hv := hr t
      · rw [← hv, hpc]
      · rw [hv] at hpc
        cases hpc' : s.threads t <;> simp_all [Pc.notified]
  cases hstep with
  | load u k b hpc' =>
    obtain rfl | htu := eq_or_ne t u
    · rw [World.set_threads_self] at hpc
      obtain ⟨rfl, rfl, -⟩ : k = h ∧ s.inner = guard ∧ b = waiting := by simpa using hpc
      exact Or.inr ⟨rfl, rfl, rfl⟩
    · rw [World.set_threads_of_ne _ htu] at hpc
      exact Or.inl ⟨hpc, by simpa [Event.thread] using htu.symm⟩
  | clone | drop => exact Or.inl ⟨hpc, by simp [Event.thread]⟩
  | notifyAll u => exact Or.inl (hset rfl (fun _ => Or.inr rfl) (by simp) hpc)
  | changed u k cached g b | unchanged u k cached g b =>
    exact Or.inl (hset rfl (fun _ => Or.inl rfl) (by cases b <;> simp) hpc)
  | _ => exact Or.inl (hset rfl (fun _ => Or.inl rfl) (by simp) hpc)

/-- A guard is not older than what its handle has cached. -/
theorem cached_index_le (h₀ : Initial s₀) (h : (machine ι η α).Steps s₀ tr s) {t : ι} {k : η}
    {cached guard : Stored α} {waiting : Bool} (hpc : s.threads t = .compare k guard waiting)
    (hlive : s.handles k = .live cached) : cached.index ≤ guard.index := by
  induction h generalizing t k cached guard waiting with
  | refl =>
    rw [h₀.threads_eq] at hpc
    cases hpc
  | @step tr s s' e hsteps hstep ih =>
    have hb := borrow ⟨s₀, h₀, hsteps⟩
    obtain ⟨hpc, hother⟩ | ⟨-, rfl, hhandles⟩ := guard_cases hstep hpc
    · have hk : (s.threads t).handle = some k := by rw [hpc]; rfl
      obtain ⟨-, hsame, -⟩ | ⟨u, c, g, b, rfl, hpc', -, -, -⟩ | ⟨k', c, -, -, hunborn, -⟩ :=
        seen_of_step hstep k
      · exact ih hpc (hsame cached hlive)
      · -- no other thread works with the handle
        have htu := hb.unique t u k hk (by rw [hpc']; rfl)
        exact absurd (congrArg some htu.symm) hother
      · obtain ⟨c', hc'⟩ := hb.live t k hk
        rw [hunborn] at hc'
        cases hc'
    · rw [hhandles] at hlive
      exact index_le h₀ hsteps (Or.inr (Or.inl ⟨k, hlive⟩))

/-! ### The views of a handle -/

omit [DecidableEq ι] [DecidableEq η] in
theorem take_concat_sublist {l : List (Stored α)} {x : Stored α} {k n : ℕ} (hkn : k < n)
    (hx : l[n]? = some x) : (l.take (k + 1) ++ [x]).Sublist (l.take (n + 1)) := by
  obtain ⟨hlt, rfl⟩ := List.getElem?_eq_some_iff.mp hx
  rw [List.take_succ_eq_append_getElem hlt]
  exact (List.take_sublist_take_left hkn).append (List.Sublist.refl _)

/-- What a handle has seen has been stored in this order, up to what it has cached. -/
structure InOrder (s₀ : World ι η α) (tr : List (World ι η α × Event ι η α)) (s : World ι η α)
    (h : η) : Prop where
  unborn : s.handles h = .unborn → views s₀ h tr = []
  live : ∀ cached, s.handles h = .live cached →
    (views s₀ h tr).Sublist ((stored s₀ tr).take (cached.index + 1))
  stored : (views s₀ h tr).Sublist (stored s₀ tr)

omit [DecidableEq ι] in
/-- At the start the only handle has cached what is in the slot. -/
theorem Initial.inOrder (h₀ : Initial s₀) (k : η) : InOrder s₀ [] s₀ k := by
  have hviews : views s₀ k [] = initialView s₀ k := by simp [views]
  have hcached : ∀ cached, s₀.handles k = .live cached → cached = s₀.inner :=
    fun cached hlive => h₀.holds (Or.inr (Or.inl ⟨k, hlive⟩))
  have htake : ∀ cached, s₀.handles k = .live cached →
      (views s₀ k []).Sublist ((Watch.stored s₀ []).take (cached.index + 1)) := by
    intro cached hlive
    rw [hviews, initialView, hlive, hcached cached hlive, h₀.index_eq]
    exact List.Sublist.refl _
  refine ⟨fun hunborn => by rw [hviews, initialView, hunborn], htake, ?_⟩
  cases hk : s₀.handles k with
  | live cached => exact (htake cached hk).trans (List.take_sublist ..)
  | unborn | dropped =>
    rw [hviews, initialView, hk]
    exact List.nil_sublist _

theorem inOrder (h₀ : Initial s₀) (h : (machine ι η α).Steps s₀ tr s) (k : η) :
    InOrder s₀ tr s k := by
  induction h with
  | refl => exact h₀.inOrder k
  | @step tr s s' e hsteps hstep ih =>
    have hget := (stored_getElem h₀ hsteps).2
    have hlonger : ∀ n, ((Watch.stored s₀ tr).take n).Sublist
        ((Watch.stored s₀ (tr ++ [(s, e)])).take n) := by
      intro n
      rw [stored_concat, List.take_append]
      exact List.sublist_append_left ..
    have hall : (Watch.stored s₀ tr).Sublist (Watch.stored s₀ (tr ++ [(s, e)])) := by
      rw [stored_concat]
      exact List.sublist_append_left ..
    obtain ⟨hnone, hsame, hunborn⟩ | ⟨t, c, g, b, rfl, hpc, hlive, hptr, hlive'⟩ |
      ⟨k', c, rfl, hlive, hunborn, hlive'⟩ := seen_of_step hstep k
    · have hviews : views s₀ k (tr ++ [(s, e)]) = views s₀ k tr := by
        rw [views_concat, hnone]
        exact List.append_nil _
      refine ⟨fun hu => ?_, fun cached hc => ?_, ?_⟩
      · rw [hviews]
        exact ih.unborn (hunborn hu)
      · rw [hviews]
        exact (ih.live cached (hsame cached hc)).trans (hlonger _)
      · rw [hviews]
        exact ih.stored.trans hall
    · have hviews : views s₀ k (tr ++ [(s, .report t k g)]) = views s₀ k tr ++ [g] := by
        rw [views_concat]
        simp [viewed]
      -- the guard is younger: of the same age it would have the same pointer
      have hcached : s.Holds c := Or.inr (Or.inl ⟨k, hlive⟩)
      have hguard : s.Holds g := Or.inr (Or.inr ⟨t, by rw [hpc]; rfl⟩)
      have hlt : c.index < g.index := by
        refine lt_of_le_of_ne (cached_index_le h₀ hsteps hpc hlive) fun heq => hptr ?_
        rw [eq_of_index_eq h₀ hsteps hcached hguard heq]
      have htake : (views s₀ k tr ++ [g]).Sublist ((Watch.stored s₀ tr).take (g.index + 1)) :=
        ((ih.live c hlive).append (List.Sublist.refl [g])).trans
          (take_concat_sublist hlt (hget g hguard))
      rw [← hviews] at htake
      refine ⟨fun hu => ?_, fun cached hc => ?_, ?_⟩
      · rw [hlive'] at hu
        cases hu
      · obtain rfl : g = cached := Handle.live.inj (hlive'.symm.trans hc)
        exact htake.trans (hlonger _)
      · exact (htake.trans (List.take_sublist ..)).trans hall
    · have hviews : views s₀ k (tr ++ [(s, .clone k' k c)]) = [c] := by
        rw [views_concat, ih.unborn hunborn]
        simp [viewed]
      have htake : [c].Sublist ((Watch.stored s₀ tr).take (c.index + 1)) := by
        rw [List.singleton_sublist]
        obtain ⟨hlt, heq⟩ := List.getElem?_eq_some_iff.mp (hget c (Or.inr (Or.inl ⟨k', hlive⟩)))
        refine List.mem_take_iff_getElem.mpr ⟨c.index, by omega, heq⟩
      rw [← hviews] at htake
      refine ⟨fun hu => ?_, fun cached hc => ?_, ?_⟩
      · rw [hlive'] at hu
        cases hu
      · obtain rfl : c = cached := Handle.live.inj (hlive'.symm.trans hc)
        exact htake.trans (hlonger _)
      · exact (htake.trans (List.take_sublist ..)).trans hall

/-- The indices of what has been stored count up from 0. -/
theorem stored_index (h₀ : Initial s₀) (h : (machine ι η α).Steps s₀ tr s) :
    (stored s₀ tr).map Stored.index = List.range (stored s₀ tr).length := by
  induction h with
  | refl => simp [stored, h₀.index_eq, List.range_succ]
  | @step tr s s' e hsteps hstep ih =>
    have hlength := (stored_getElem h₀ hsteps).1
    rw [stored_concat]
    cases e with
    | swap t x =>
      obtain ⟨hx, -, -⟩ := swap_cases hstep
      simp [swapped, ih, hx, hlength, List.range_succ]
    | _ => simpa [swapped] using ih

/-! ### Loads -/

/-- A guard has been loaded by the last step of its thread, and was in the slot then. -/
theorem load_of_guard (h₀ : Initial s₀) (h : (machine ι η α).Steps s₀ tr s) {t : ι} {k : η}
    {guard : Stored α} {waiting : Bool} (hpc : s.threads t = .compare k guard waiting) :
    ∃ before s₁ during, tr = before ++ (s₁, .load t k s₁.inner) :: during ∧ guard = s₁.inner
      ∧ ∀ y ∈ during, y.2.thread ≠ some t := by
  have hstart : ¬ s₀.threads t = .compare k guard waiting := by
    rw [h₀.threads_eq]
    exact nofun
  have hcame : ∀ s e s', Step s e s' → s'.threads t = .compare k guard waiting →
      (e = .load t k s.inner ∧ guard = s.inner)
        ∨ s.threads t = .compare k guard waiting ∧ e.thread ≠ some t := by
    intro s e s' hstep hpc
    obtain ⟨hpc, hother⟩ | ⟨he, hguard, -⟩ := guard_cases hstep hpc
    · exact Or.inr ⟨hpc, hother⟩
    · exact Or.inl ⟨by rw [he, hguard], hguard⟩
  obtain ⟨before, s₁, e, during, rfl, ⟨rfl, hguard⟩, hquiet⟩ := h.came_from hcame hstart hpc
  exact ⟨before, s₁, during, rfl, hguard, hquiet⟩

end

/-- A handle sees a subsequence of what has been stored, in which it never goes back; and when it
reports no change, it has cached what was in the slot when it looked, which was the last thing its
thread had done. -/
theorem observers_in_order (s₀ : World ι η α) (tr : List (World ι η α × Event ι η α))
    (s : World ι η α) (h₀ : Initial s₀) (hsteps : (machine ι η α).Steps s₀ tr s) :
    (∀ h, (views s₀ h tr).Sublist (stored s₀ tr)
        ∧ (views s₀ h tr).Pairwise fun x y => x.index < y.index)
      ∧ (stored s₀ tr).map Stored.index = List.range (stored s₀ tr).length
      ∧ ∀ pre s₁ t h post, tr = pre ++ (s₁, .same t h) :: post →
        ∃ before s₂ during cached, pre = before ++ (s₂, .load t h s₂.inner) :: during
          ∧ (∀ y ∈ during, y.2.thread ≠ some t) ∧ s₁.handles h = .live cached
          ∧ (cached = s₂.inner ∨ cached.arc = none ∧ s₂.inner.arc = none) := by
  have hindex := stored_index h₀ hsteps
  refine ⟨fun h => ?_, hindex, ?_⟩
  · have hsub := (inOrder h₀ hsteps h).stored
    refine ⟨hsub, ?_⟩
    have hpairwise : ((stored s₀ tr).map Stored.index).Pairwise (· < ·) := by
      rw [hindex]
      exact List.pairwise_lt_range
    exact (List.pairwise_map.mp hpairwise).sublist hsub
  · rintro pre s₁ t h post rfl
    obtain ⟨hpre, s₂, hstep, -⟩ := hsteps.split_cons
    cases hstep with
    | unchanged _ _ cached guard waiting hpc hlive hptr =>
      obtain ⟨before, s₂, during, hbefore, rfl, hquiet⟩ := load_of_guard h₀ hpre hpc
      have hsame := (distinct ⟨s₀, h₀, hpre⟩).same (Or.inr (Or.inl ⟨h, hlive⟩))
        (Or.inr (Or.inr ⟨t, by rw [hpc]; rfl⟩)) hptr
      exact ⟨before, s₂, during, cached, hbefore, hquiet, hlive, hsame⟩

/-- One handle inherits the empty slot, reports the swap and then no change. -/
theorem sample_observed :
    ∃ tr s, (machine (Fin 2) ℕ ℕ).Steps sampleWorld tr s
      ∧ views sampleWorld 0 tr = [⟨0, none⟩, ⟨1, some ⟨7, 5⟩⟩]
      ∧ (views sampleWorld 0 tr).Sublist (stored sampleWorld tr)
      ∧ (views sampleWorld 0 tr).Pairwise (fun x y => x.index < y.index)
      ∧ (stored sampleWorld tr).map Stored.index = List.range 2 := by
  obtain ⟨tr, s, hsteps, -, -, -, hevents⟩ := sample_steps
  obtain ⟨hviews, hindex, -⟩ := observers_in_order sampleWorld tr s sampleWorld_initial hsteps
  have hstored : stored sampleWorld tr = [⟨0, none⟩, ⟨1, some ⟨7, 5⟩⟩] := by
    have hmap : stored sampleWorld tr
        = sampleWorld.inner :: (tr.map Prod.snd).filterMap swapped := by
      rw [stored, List.filterMap_map]
      rfl
    rw [hmap, hevents]
    rfl
  have hseen : views sampleWorld 0 tr = [⟨0, none⟩, ⟨1, some ⟨7, 5⟩⟩] := by
    have hmap : views sampleWorld 0 tr
        = initialView sampleWorld 0 ++ (tr.map Prod.snd).filterMap (viewed 0) := by
      rw [views, List.filterMap_map]
      rfl
    rw [hmap, hevents]
    rfl
  rw [hstored] at hindex
  exact ⟨tr, s, hsteps, hseen, (hviews 0).1, (hviews 0).2, hstored ▸ hindex⟩

/-! ### The numbered slot -/

/-- A reference as the numbered slot has it. -/
def Stored.numbered (x : Stored α) : Option (Instance α) := x.arc.map fun a => ⟨x.index, a.value⟩

def World.slot (s : World ι η α) : Slot α := ⟨s.inner.numbered, s.inner.index + 1⟩

theorem slot_swap {s s' : World ι η α} {t : ι} {x : Stored α} (h : Step s (.swap t x) s') :
    s'.slot = s.slot.swap (x.arc.map Arc.value) := by
  obtain ⟨hx, hinner, -⟩ := swap_cases h
  have hindex : x.index = s.inner.index + 1 := by rw [hx]
  rw [World.slot, hinner, Slot.swap, Stored.numbered, Option.map_map, hindex]
  rfl

/-- Comparing addresses is comparing numbers. -/
theorem ptr_eq_iff {s₀ s : World ι η α} {tr : List (World ι η α × Event ι η α)}
    (h₀ : Initial s₀) (h : (machine ι η α).Steps s₀ tr s) {x y : Stored α} (hx : s.Holds x)
    (hy : s.Holds y) : x.ptr = y.ptr ↔ Slot.ptr x.numbered = Slot.ptr y.numbered := by
  constructor
  · intro hptr
    obtain rfl | ⟨hxa, hya⟩ := (distinct ⟨s₀, h₀, h⟩).same hx hy hptr
    · rfl
    · simp [Stored.numbered, hxa, hya]
  · intro hnumber
    cases hxa : x.arc with
    | none =>
      have hya : y.arc = none := by simpa [Stored.numbered, Slot.ptr, hxa] using hnumber.symm
      simp [Stored.ptr, hxa, hya]
    | some a =>
      obtain ⟨b, hindex⟩ : ∃ b, y.arc = some b ∧ y.index = x.index := by
        simpa [Stored.numbered, Slot.ptr, hxa] using hnumber.symm
      rw [eq_of_index_eq h₀ h hx hy hindex.2.symm]

/-- A handle that has compared its cached value with a guard holds what `get_changed` of the
numbered slot would have given it at the load. -/
theorem cached_getChanged {s₀ s₁ s₃ : World ι η α} {pre : List (World ι η α × Event ι η α)}
    {e : Event ι η α} {t : ι} {h : η} (h₀ : Initial s₀)
    (hpre : (machine ι η α).Steps s₀ pre s₁) (hstep : Step s₁ e s₃)
    (he : e = .same t h ∨ ∃ x, e = .report t h x) :
    ∃ before s₂ during cached cached', pre = before ++ (s₂, .load t h s₂.inner) :: during
      ∧ s₁.handles h = .live cached ∧ s₃.handles h = .live cached'
      ∧ cached'.numbered = s₂.slot.getChanged cached.numbered := by
  obtain rfl | ⟨x, rfl⟩ := he
  · cases hstep with
    | unchanged _ _ cached guard waiting hpc hlive hptr =>
      obtain ⟨before, s₂, during, hbefore, rfl, -⟩ := load_of_guard h₀ hpre hpc
      refine ⟨before, s₂, during, cached, cached, hbefore, hlive, hlive, ?_⟩
      have hnumber := (ptr_eq_iff h₀ hpre (Or.inr (Or.inl ⟨h, hlive⟩))
        (Or.inr (Or.inr ⟨t, by rw [hpc]; rfl⟩))).mp hptr
      have hsame : ¬ s₂.slot.Changed cached.numbered := not_not.mpr hnumber.symm
      rw [Slot.getChanged, if_neg hsame]
  · cases hstep with
    | changed _ _ cached guard waiting hpc hlive hptr =>
      obtain ⟨before, s₂, during, hbefore, rfl, -⟩ := load_of_guard h₀ hpre hpc
      refine ⟨before, s₂, during, cached, s₂.inner, hbefore, hlive, Function.update_self .., ?_⟩
      have hnumber := mt (ptr_eq_iff h₀ hpre (Or.inr (Or.inl ⟨h, hlive⟩))
        (Or.inr (Or.inr ⟨t, by rw [hpc]; rfl⟩))).mpr hptr
      have hchanged : s₂.slot.Changed cached.numbered := fun heq => hnumber heq.symm
      exact (Slot.getChanged_of_changed hchanged).symm

end Watch
