/-
In-place loops over arrays.

A loop that overwrites an array entry by entry is a fold of `Vector.set`.  Two
shapes occur again and again:

* `foldl_set_class` — iteration `k` changes only the entries of class `k` and
  reads only entries of its own class: the entries of class `k` are those of
  iteration `k` run on the original array;
* `walk` — one entry after the other receives the value carried over from the
  previous one: a rotation along a list of distinct positions.

Loops of several parties may be interleaved, turn by turn (`Interleaving.foldl_inv`).
-/
import Mathlib.Tactic

namespace Loops

variable {α κ : Type*} {n : ℕ}

/-- What no iteration changes, the loop does not change. -/
theorem foldl_frame {σ ε β : Type*} (get : σ → β) {step : σ → ε → σ}
    (h : ∀ s e, get (step s e) = get s) (L : List ε) (s : σ) : get (L.foldl step s) = get s := by
  induction L generalizing s with
  | nil => rfl
  | cons e L ih => exact (ih (step s e)).trans (h s e)

/-- What every iteration keeps, the loop keeps. -/
theorem foldl_keep {σ ε : Type*} {P : σ → Prop} {step : σ → ε → σ} {L : List ε}
    (h : ∀ s, ∀ e ∈ L, P s → P (step s e)) {s : σ} (hs : P s) : P (L.foldl step s) :=
  List.foldlRecOn (motive := P) L step hs fun s hs e he => h s e he hs

/-- What one iteration brings about and every iteration keeps holds after the loop. -/
theorem foldl_reach {σ ε : Type*} {P : σ → Prop} {step : σ → ε → σ} {L : List ε}
    (hkeep : ∀ s, ∀ e ∈ L, P s → P (step s e)) {e : ε} (he : e ∈ L) (hset : ∀ s, P (step s e))
    (s : σ) : P (L.foldl step s) := by
  obtain ⟨before, after, rfl⟩ := List.append_of_mem he
  rw [List.foldl_append, List.foldl_cons]
  exact foldl_keep (fun s d hd => hkeep s d (List.mem_append_right _ (List.mem_cons_of_mem _ hd)))
    (hset _)

/-- A loop of two assignments is two loops, when no assignment of one kind interferes with one of
the other. -/
theorem foldl_split {σ ε : Type*} (f g : σ → ε → σ) {L : List ε}
    (hcomm : ∀ s, ∀ e ∈ L, ∀ d ∈ L, f (g s d) e = g (f s e) d) (s : σ) :
    L.foldl (fun s e => g (f s e) e) s = L.foldl g (L.foldl f s) := by
  have hswap : ∀ (e : ε) (before : List ε) (s : σ), (∀ s, ∀ d ∈ before, f (g s d) e = g (f s e) d) →
      f (before.foldl g s) e = before.foldl g (f s e) := by
    intro e before
    induction before with
    | nil => exact fun _ _ => rfl
    | cons d before ih =>
      intro s hbefore
      rw [List.foldl_cons, List.foldl_cons,
        ih (g s d) fun s d hd => hbefore s d (List.mem_cons_of_mem _ hd),
        hbefore s d List.mem_cons_self]
  induction L using List.reverseRecOn with
  | nil => rfl
  | append_singleton before e ih =>
    rw [List.foldl_append, List.foldl_append, List.foldl_append,
      ih fun s e he d hd => hcomm s e (List.mem_append_left _ he) d (List.mem_append_left _ hd)]
    simp only [List.foldl_cons, List.foldl_nil]
    rw [hswap e before _ fun s d hd =>
      hcomm s e (List.mem_append_right _ List.mem_cons_self) d (List.mem_append_left _ hd)]

/-- A loop whose iterations own disjoint classes of entries. -/
theorem foldl_set_class (cls : Fin n → κ) (step : κ → Vector α n → Vector α n)
    (frame : ∀ k v (q : Fin n), cls q ≠ k → (step k v)[q] = v[q])
    (local_ : ∀ k v v', (∀ q : Fin n, cls q = k → v[q] = v'[q]) →
      ∀ q : Fin n, cls q = k → (step k v)[q] = (step k v')[q])
    {L : List κ} (hL : L.Nodup) (v : Vector α n) (q : Fin n) :
    (cls q ∈ L → (L.foldl (fun v k => step k v) v)[q] = (step (cls q) v)[q]) ∧
      (cls q ∉ L → (L.foldl (fun v k => step k v) v)[q] = v[q]) := by
  induction L generalizing v with
  | nil => simp
  | cons k L ih =>
    obtain ⟨hk, hL⟩ := List.nodup_cons.mp hL
    obtain ⟨ihmem, ihnot⟩ := ih hL (step k v)
    simp only [List.foldl_cons]
    constructor
    · intro hq
      rcases List.mem_cons.mp hq with rfl | hq
      · exact ihnot hk
      · have hne : cls q ≠ k := fun h => hk (h ▸ hq)
        rw [ihmem hq]
        apply local_
        · intro p hp
          exact frame k v p (fun h => hne (hp.symm.trans h))
        · rfl
    · intro hq
      obtain ⟨hne, hq⟩ := not_or.mp (List.mem_cons.not.mp hq)
      rw [ihnot hq, frame k v q hne]

/-- A loop that updates each entry of a list of positions from its own value. -/
theorem foldl_set_entry (g : Fin n → α → α) {L : List (Fin n)} (hL : L.Nodup) (v : Vector α n)
    (q : Fin n) :
    (L.foldl (fun v p => v.set p (g p v[p])) v)[q] = if q ∈ L then g q v[q] else v[q] := by
  have h := foldl_set_class id (fun p v => v.set p (g p v[p]))
    (by
      intro k v q hq
      simp only [Fin.getElem_fin]
      rw [Vector.getElem_set_ne _ _ (by simpa [Fin.ext_iff, eq_comm] using hq)])
    (by
      intro k v v' hv q hq
      subst hq
      have := hv q rfl
      simp only [Fin.getElem_fin, id_eq] at this ⊢
      simp [this]) hL v q
  by_cases hq : q ∈ L
  · rw [if_pos hq, h.1 hq]
    simp
  · rw [if_neg hq, h.2 hq]

/-- The loop `t' = v[p]; v[p] = f(t, e); t = t'` along entries `e` at positions `p e`. -/
def walkStep {ε : Type*} (p : ε → Fin n) (f : α → ε → α) (s : Vector α n × α) (e : ε) :
    Vector α n × α :=
  (s.1.set (p e) (f s.2 e), s.1[p e])

/-- Along distinct positions, each entry receives the value of the one before. -/
theorem walk {ε : Type*} (p : ε → Fin n) (f : α → ε → α) (L : List ε) (hL : (L.map p).Nodup)
    (v : Vector α n) (t : α) :
    (∀ q : Fin n, q ∉ L.map p → (L.foldl (walkStep p f) (v, t)).1[q] = v[q]) ∧
      ∀ k (hk : k < L.length), (L.foldl (walkStep p f) (v, t)).1[p L[k]]
        = f (if _h : k = 0 then t else v[p L[k - 1]]) L[k] := by
  -- the value that is carried is the old entry at the last position
  induction L generalizing v t with
  | nil => simp
  | cons e L ih =>
    obtain ⟨he, hL⟩ := List.nodup_cons.mp hL
    obtain ⟨ihnot, ihmem⟩ := ih hL (v.set (p e) (f t e)) v[p e]
    have hset : ∀ q : Fin n, q ≠ p e → (v.set (p e) (f t e))[q] = v[q] := by
      intro q hq
      simp only [Fin.getElem_fin]
      exact Vector.getElem_set_ne _ _ (by simpa [Fin.ext_iff, eq_comm] using hq)
    simp only [List.foldl_cons]
    change (∀ q : Fin n, _ → (L.foldl (walkStep p f) (v.set (p e) (f t e), v[p e])).1[q] = _) ∧
      ∀ k (hk : k < (e :: L).length),
        (L.foldl (walkStep p f) (v.set (p e) (f t e), v[p e])).1[p (e :: L)[k]] = _
    constructor
    · intro q hq
      obtain ⟨hne, hq⟩ := not_or.mp (List.mem_cons.not.mp hq)
      rw [ihnot q hq, hset q hne]
    · intro k hk
      rcases k with _ | k
      · simp only [List.getElem_cons_zero, dif_pos]
        rw [ihnot _ he]
        simp
      · have hk' : k < L.length := by simpa using hk
        simp only [List.getElem_cons_succ, Nat.add_sub_cancel]
        rw [ihmem k hk']
        rcases k with _ | k
        · simp
        · have hne : p L[k] ≠ p e := fun h => he (h ▸ List.mem_map_of_mem (List.getElem_mem _))
          simp only [Nat.add_eq_zero_iff, one_ne_zero, and_false, dif_neg, not_false_eq_true,
            Nat.add_sub_cancel, List.getElem_cons_succ]
          rw [hset _ hne]

/-- Two nested loops count through the numbers below the product. -/
theorem range_mul (a b : ℕ) :
    List.range (a * b) = (List.range a).flatMap fun i => (List.range b).map (i * b + ·) := by
  induction a with
  | zero =>
    rw [Nat.zero_mul]
    rfl
  | succ a ih =>
    rw [Nat.add_one_mul, List.range_add, List.range_succ, List.flatMap_append, ih,
      List.flatMap_singleton]

/-! ### Several programs, turn by turn -/

section

variable {ι τ σ : Type*} [DecidableEq ι]

/-- The turns of one party. -/
def turnsOf (i : ι) (order : List (ι × τ)) : List τ :=
  (order.filter fun e => e.1 = i).map Prod.snd

/-- The turns of several parties, each in the order of its own program. -/
structure Interleaving (program : ι → List τ) where
  order : List (ι × τ)
  own : ∀ i, turnsOf i order = program i

theorem turnsOf_append (i : ι) (before after : List (ι × τ)) :
    turnsOf i (before ++ after) = turnsOf i before ++ turnsOf i after := by
  rw [turnsOf, List.filter_append, List.map_append]
  rfl

theorem turnsOf_cons_self (i : ι) (t : τ) (after : List (ι × τ)) :
    turnsOf i ((i, t) :: after) = t :: turnsOf i after := by
  simp [turnsOf]

theorem turnsOf_cons_of_ne {i k : ι} (h : k ≠ i) (t : τ) (after : List (ι × τ)) :
    turnsOf i ((k, t) :: after) = turnsOf i after := by
  simp [turnsOf, h]

/-- A party's next turn is that of its program. -/
theorem Interleaving.getElem?_program {program : ι → List τ} (run : Interleaving program)
    {before after : List (ι × τ)} {i : ι} {t : τ} (h : run.order = before ++ (i, t) :: after) :
    (program i)[(turnsOf i before).length]? = some t := by
  rw [← run.own i, h, turnsOf_append, turnsOf_cons_self]
  simp

/-- If a turn takes its own party one step further and no other party back, then after any part of
the run each party is as far as it has had turns. -/
theorem Interleaving.foldl_inv {program : ι → List τ} (run : Interleaving program)
    {step : σ → ι × τ → σ} (Inv : ι → ℕ → σ → Prop)
    (hturn : ∀ s i n t, (program i)[n]? = some t → Inv i n s →
      Inv i (n + 1) (step s (i, t)) ∧ ∀ j, j ≠ i → ∀ m, Inv j m s → Inv j m (step s (i, t)))
    {s : σ} (hs : ∀ i, Inv i 0 s) {before after : List (ι × τ)}
    (h : run.order = before ++ after) (i : ι) :
    Inv i (turnsOf i before).length (before.foldl step s) := by
  induction before using List.reverseRecOn generalizing after i with
  | nil => exact hs i
  | append_singleton before e ih =>
    obtain ⟨k, t⟩ := e
    rw [List.append_assoc, List.singleton_append] at h
    obtain ⟨hown, hother⟩ := hturn _ k _ t (run.getElem?_program h) (ih h k)
    rw [List.foldl_append, List.foldl_cons, List.foldl_nil, turnsOf_append, List.length_append]
    by_cases hk : k = i
    · subst hk
      rw [turnsOf_cons_self]
      exact hown
    · rw [turnsOf_cons_of_ne hk]
      exact hother i (fun hi => hk hi.symm) _ (ih h i)

/-! ### One party after the other -/

theorem turnsOf_own (i : ι) (turns : List τ) : turnsOf i (turns.map fun t => (i, t)) = turns := by
  induction turns with
  | nil => rfl
  | cons t turns ih => rw [List.map_cons, turnsOf_cons_self, ih]

theorem turnsOf_other {i k : ι} (h : k ≠ i) (turns : List τ) :
    turnsOf i (turns.map fun t => (k, t)) = [] := by
  induction turns with
  | nil => rfl
  | cons t turns ih => rw [List.map_cons, turnsOf_cons_of_ne h, ih]

theorem turnsOf_range (program : ℕ → List τ) (n i : ℕ) :
    turnsOf i ((List.range n).flatMap fun k => (program k).map fun t => (k, t))
      = if i < n then program i else [] := by
  induction n with
  | zero => rfl
  | succ n ih =>
    rw [List.range_succ, List.flatMap_append, turnsOf_append, ih, List.flatMap_singleton]
    rcases Nat.lt_trichotomy i n with hlt | rfl | hgt
    · rw [turnsOf_other (Nat.ne_of_gt hlt), if_pos hlt, if_pos (by omega), List.append_nil]
    · rw [turnsOf_own, if_neg (Nat.lt_irrefl i), if_pos (Nat.lt_succ_self i), List.nil_append]
    · rw [turnsOf_other (Nat.ne_of_lt hgt), if_neg (by omega), if_neg (by omega)]
      rfl

theorem turnsOf_oneByOne {program : ℕ → List τ} {n : ℕ} (h : ∀ i, n ≤ i → program i = []) (i : ℕ) :
    turnsOf i ((List.range n).flatMap fun k => (program k).map fun t => (k, t)) = program i := by
  rw [turnsOf_range]
  split
  case isTrue => rfl
  case isFalse hi => exact (h i (Nat.le_of_not_lt hi)).symm

/-- The parties below `n`, one after the other. -/
def oneByOne {program : ℕ → List τ} (n : ℕ) (h : ∀ i, n ≤ i → program i = []) :
    Interleaving program :=
  ⟨_, turnsOf_oneByOne h⟩

end

end Loops
