/-
Threads between barriers.

The threads of a warp run one list of instructions, each on variables of its own and on
a memory that all share; they are scheduled one action at a time in any order, and wait
for the threads of their group at a barrier only.  Every cell of the memory has at most
one owner.  From one barrier to the next a warp is either in the mode in which each
thread touches its own cells, or in the mode in which the threads read each other's.

* `lockstep`, `Disciplined` — the warp instruction by instruction, and what it touches;
* `Triple` — pre- and postconditions of code in lockstep;
* `inv_run`, `done_of_finished` — under every schedule a thread is where it is in lockstep;
* `finished_of_stuck`, `schedule_le` — no schedule blocks, and every one ends.
-/
import Mathlib.Tactic
import VelkarMiner.Runs

namespace Barriers

/-! ### Instructions -/

variable {ω θ κ α β σ : Type*}

inductive Action (α β σ : Type*)
  | compute (f : σ → σ)
  | load (addr : σ → α) (f : β → σ → σ)
  | store (addr : σ → α) (val : σ → β)

/-- What the threads of a warp may touch. -/
inductive Mode
  | own
  | read

/-- An action of each thread, or a barrier and the mode behind it. -/
inductive Instr (θ α β σ : Type*)
  | act (x : θ → Action α β σ)
  | barrier (next : Mode)

/-- Up to the next barrier. -/
def NoBarrier (code : List (Instr θ α β σ)) : Prop := ∀ x ∈ code, ∃ y, x = .act y

theorem exists_phase (code : List (Instr θ α β σ)) : ∃ current after, code = current ++ after
    ∧ NoBarrier current ∧ (after = [] ∨ ∃ next rest, after = .barrier next :: rest) := by
  induction code with
  | nil => exact ⟨[], [], rfl, by simp [NoBarrier], Or.inl rfl⟩
  | cons x code ih =>
    obtain ⟨current, after, hcode, hcurrent, hafter⟩ := ih
    cases x with
    | barrier next => exact ⟨[], _, rfl, by simp [NoBarrier], Or.inr ⟨next, code, rfl⟩⟩
    | act x =>
      refine ⟨.act x :: current, after, by rw [hcode]; rfl, ?_, hafter⟩
      intro y hy
      rcases List.mem_cons.mp hy with rfl | hy
      · exact ⟨x, rfl⟩
      · exact hcurrent y hy

/-- The number of barriers. -/
def barriers (code : List (Instr θ α β σ)) : ℕ :=
  code.countP fun x => match x with
    | .act _ => false
    | .barrier _ => true

@[simp] theorem barriers_act (x : θ → Action α β σ) (code : List (Instr θ α β σ)) :
    barriers (.act x :: code) = barriers code := by
  simp [barriers]

@[simp] theorem barriers_barrier (next : Mode) (code : List (Instr θ α β σ)) :
    barriers (.barrier next :: code) = barriers code + 1 := by
  simp [barriers]

/-- The mode behind some code. -/
def modeAfter : Mode → List (Instr θ α β σ) → Mode
  | m, [] => m
  | m, .act _ :: code => modeAfter m code
  | _, .barrier next :: code => modeAfter next code

theorem modeAfter_append (m : Mode) (xs ys : List (Instr θ α β σ)) :
    modeAfter m (xs ++ ys) = modeAfter (modeAfter m xs) ys := by
  induction xs generalizing m with
  | nil => rfl
  | cons x xs ih => cases x <;> exact ih _

/-- What a warp sees. -/
@[ext] structure View (θ α β σ : Type*) where
  shared : α → β
  priv : θ → σ

section

variable [DecidableEq α]

/-- The memory and the variables of a thread after an action. -/
def Action.run (x : Action α β σ) (shared : α → β) (r : σ) : (α → β) × σ :=
  match x with
  | compute f => (shared, f r)
  | load addr f => (shared, f (shared (addr r)) r)
  | store addr val => (Function.update shared (addr r) (val r), r)

section

variable (owner : α → Option (ω × θ))

/-- All threads at once: a cell becomes what its owner makes of it. -/
def Instr.run (S : View θ α β σ) : Instr θ α β σ → View θ α β σ
  | act x =>
    { shared := fun a => match owner a with
        | some (_, t) => ((x t).run S.shared (S.priv t)).1 a
        | none => S.shared a
      priv := fun t => ((x t).run S.shared (S.priv t)).2 }
  | barrier _ => S

theorem run_compute (f : θ → σ → σ) (S : View θ α β σ) :
    (Instr.act fun t => .compute (f t)).run owner S = ⟨S.shared, fun t => f t (S.priv t)⟩ := by
  refine View.ext (funext fun a => ?_) rfl
  simp only [Instr.run, Action.run]
  split <;> rfl

theorem run_load (addr : θ → σ → α) (f : θ → β → σ → σ) (S : View θ α β σ) :
    (Instr.act fun t => .load (addr t) (f t)).run owner S
      = ⟨S.shared, fun t => f t (S.shared (addr t (S.priv t))) (S.priv t)⟩ := by
  refine View.ext (funext fun a => ?_) rfl
  simp only [Instr.run, Action.run]
  split <;> rfl

variable {owner} in
/-- A cell after a store, seen by its owner. -/
theorem run_store {addr : θ → σ → α} {val : θ → σ → β} (S : View θ α β σ) {a : α} {p : ω × θ}
    (h : owner a = some p) :
    ((Instr.act fun t => .store (addr t) (val t)).run owner S).shared a
      = if a = addr p.2 (S.priv p.2) then val p.2 (S.priv p.2) else S.shared a := by
  simp [Instr.run, Action.run, h, Function.update_apply]

/-- A cell that no thread stores to. -/
theorem run_store_of_ne {addr : θ → σ → α} {val : θ → σ → β} (S : View θ α β σ) {a : α}
    (h : ∀ t, a ≠ addr t (S.priv t)) :
    ((Instr.act fun t => .store (addr t) (val t)).run owner S).shared a = S.shared a := by
  simp only [Instr.run, Action.run]
  split
  · exact Function.update_of_ne (h _) _ _
  · rfl

def lockstep (code : List (Instr θ α β σ)) (S : View θ α β σ) : View θ α β σ :=
  code.foldl (Instr.run owner) S

@[simp] theorem lockstep_nil (S : View θ α β σ) : lockstep owner [] S = S := rfl

@[simp] theorem lockstep_cons (x : Instr θ α β σ) (code : List (Instr θ α β σ))
    (S : View θ α β σ) : lockstep owner (x :: code) S = lockstep owner code (x.run owner S) := rfl

@[simp] theorem lockstep_append (xs ys : List (Instr θ α β σ)) (S : View θ α β σ) :
    lockstep owner (xs ++ ys) S = lockstep owner ys (lockstep owner xs S) :=
  List.foldl_append

variable (w : ω)

/-- An action of a thread that the mode allows. -/
def Action.Allowed (t : θ) (r : σ) : Mode → Action α β σ → Prop
  | _, compute _ => True
  | .own, load addr _ => owner (addr r) = some (w, t)
  | .own, store addr _ => owner (addr r) = some (w, t)
  | .read, load addr _ => ∃ t', owner (addr r) = some (w, t')
  | .read, store _ _ => False

/-- Every action that is reached in lockstep is allowed. -/
def Disciplined : Mode → List (Instr θ α β σ) → View θ α β σ → Prop
  | _, [], _ => True
  | m, .act x :: code, S =>
    (∀ t, (x t).Allowed owner w t (S.priv t) m) ∧ Disciplined m code ((Instr.act x).run owner S)
  | _, .barrier next :: code, S => Disciplined next code S

theorem disciplined_append {m : Mode} {xs ys : List (Instr θ α β σ)} {S : View θ α β σ} :
    Disciplined owner w m (xs ++ ys) S
      ↔ Disciplined owner w m xs S
        ∧ Disciplined owner w (modeAfter m xs) ys (lockstep owner xs S) := by
  induction xs generalizing m S with
  | nil => simp [Disciplined, modeAfter]
  | cons x xs ih =>
    cases x with
    | act x =>
      rw [List.cons_append, Disciplined, Disciplined, ih, and_assoc]
      rfl
    | barrier next => exact ih

/-! ### Triples -/

/-- From a state with `P`, in the own mode, the code keeps to the discipline, comes back to the own
mode and leads to a state with `Q`. -/
structure Triple (P : View θ α β σ → Prop) (code : List (Instr θ α β σ))
    (Q : View θ α β σ → Prop) : Prop where
  modeAfter_eq : modeAfter .own code = .own
  disciplined : ∀ S, P S → Disciplined owner w .own code S
  post : ∀ S, P S → Q (lockstep owner code S)

variable {owner w} {P Q R : View θ α β σ → Prop} {xs ys : List (Instr θ α β σ)}

theorem Triple.nil : Triple owner w P [] P := ⟨rfl, fun _ _ => trivial, fun _ h => h⟩

theorem Triple.append (hx : Triple owner w P xs Q) (hy : Triple owner w Q ys R) :
    Triple owner w P (xs ++ ys) R where
  modeAfter_eq := by rw [modeAfter_append, hx.modeAfter_eq, hy.modeAfter_eq]
  disciplined S h := by
    rw [disciplined_append, hx.modeAfter_eq]
    exact ⟨hx.disciplined S h, hy.disciplined _ (hx.post S h)⟩
  post S h := by
    rw [lockstep_append]
    exact hy.post _ (hx.post S h)

/-- One action of each thread. -/
theorem Triple.act {x : θ → Action α β σ}
    (hallowed : ∀ S, P S → ∀ t, (x t).Allowed owner w t (S.priv t) .own)
    (hpost : ∀ S, P S → Q ((Instr.act x).run owner S)) : Triple owner w P [.act x] Q :=
  ⟨rfl, fun S hS => ⟨hallowed S hS, trivial⟩, hpost⟩

theorem Triple.compute {f : θ → σ → σ} (h : ∀ S, P S → Q ⟨S.shared, fun t => f t (S.priv t)⟩) :
    Triple owner w P [.act fun t => .compute (f t)] Q :=
  Triple.act (fun _ _ _ => trivial) fun S hS => by
    rw [run_compute]
    exact h S hS

end

/-! ### What an action sees and changes -/

variable {owner : α → Option (ω × θ)} {w : ω}
/-- The store of a thread goes to a cell of its own. -/
theorem run_frame {x : Action α β σ} {t : θ} {m : Mode} {r : σ} (h : x.Allowed owner w t r m)
    (shared : α → β) {a : α} (ha : owner a ≠ some (w, t)) : (x.run shared r).1 a = shared a := by
  cases x with
  | compute f => rfl
  | load addr f => rfl
  | store addr val =>
    cases m with
    | own =>
      refine Function.update_of_ne (fun heq => ha ?_) _ _
      rw [heq]
      exact h
    | read => exact h.elim

/-- An action that finds in the cells that it may touch what it would find elsewhere. -/
theorem run_congr {x : Action α β σ} {t : θ} {m : Mode} {r : σ} (h : x.Allowed owner w t r m)
    {shared shared' : α → β} (hown : ∀ a, owner a = some (w, t) → shared a = shared' a)
    (hread : m = .read → ∀ t' a, owner a = some (w, t') → shared a = shared' a) :
    (x.run shared r).2 = (x.run shared' r).2
      ∧ ∀ a, owner a = some (w, t) → (x.run shared r).1 a = (x.run shared' r).1 a := by
  cases x with
  | compute f => exact ⟨rfl, hown⟩
  | load addr f =>
    refine ⟨congrArg (fun b => f b r) ?_, hown⟩
    cases m with
    | own => exact hown _ h
    | read =>
      obtain ⟨t', ht'⟩ := h
      exact hread rfl t' _ ht'
  | store addr val =>
    refine ⟨rfl, fun a ha => ?_⟩
    by_cases heq : a = addr r
    · simp [Action.run, heq]
    · simp [Action.run, heq, hown a ha]

theorem disciplined_at {m : Mode} {done code : List (Instr θ α β σ)} {x : θ → Action α β σ}
    {S : View θ α β σ} (hdone : NoBarrier done)
    (h : Disciplined owner w m (done ++ .act x :: code) S) (t : θ) :
    (x t).Allowed owner w t ((lockstep owner done S).priv t) m := by
  induction done generalizing S with
  | nil => exact h.1 t
  | cons y done ih =>
    obtain ⟨y, rfl⟩ := hdone y List.mem_cons_self
    exact ih (fun z hz => hdone z (List.mem_cons_of_mem _ hz)) h.2

/-- In the reading mode nothing is stored. -/
theorem shared_of_read {done code : List (Instr θ α β σ)} {S : View θ α β σ}
    (hdone : NoBarrier done) (h : Disciplined owner w .read (done ++ code) S) :
    (lockstep owner done S).shared = S.shared := by
  induction done generalizing S with
  | nil => rfl
  | cons y done ih =>
    obtain ⟨y, rfl⟩ := hdone y List.mem_cons_self
    rw [lockstep_cons, ih (fun z hz => hdone z (List.mem_cons_of_mem _ hz)) h.2]
    funext a
    rw [Instr.run]
    dsimp only
    split
    · next t _ =>
      have hallowed := h.1 t
      cases hy : y t with
      | store addr val => rw [hy] at hallowed; exact hallowed.elim
      | _ => rfl
    · rfl

end

/-! ### Schedules -/

/-- The memory, the variables of the threads and the code in front of each. -/
structure State (ω θ α β σ : Type*) where
  shared : α → β
  priv : ω × θ → σ
  todo : ω × θ → List (Instr θ α β σ)

inductive Event (ω θ κ : Type*)
  | act (p : ω × θ)
  | barrier (g : κ)

section

variable [DecidableEq α] [DecidableEq ω] [DecidableEq θ]

/-- A thread acts and goes on with the rest of its code. -/
def State.act (s : State ω θ α β σ) (p : ω × θ) (x : Action α β σ) (code : List (Instr θ α β σ)) :
    State ω θ α β σ where
  shared := (x.run s.shared (s.priv p)).1
  priv := Function.update s.priv p (x.run s.shared (s.priv p)).2
  todo := Function.update s.todo p code

variable [DecidableEq κ] (group : ω → κ)

/-- The threads of a group go on behind their barrier. -/
def State.pass (s : State ω θ α β σ) (g : κ) : State ω θ α β σ :=
  { s with todo := fun p => if group p.1 = g then (s.todo p).tail else s.todo p }

/-- An action of one thread, or a barrier at which all threads of a group have arrived. -/
inductive Step : State ω θ α β σ → Event ω θ κ → State ω θ α β σ → Prop
  | act (s : State ω θ α β σ) (p : ω × θ) (x : θ → Action α β σ) (code : List (Instr θ α β σ))
      (h : s.todo p = .act x :: code) : Step s (.act p) (s.act p (x p.2) code)
  | barrier (s : State ω θ α β σ) (g : κ) (hg : ∃ w, group w = g)
      (h : ∀ p, group p.1 = g → ∃ next code, s.todo p = .barrier next :: code) :
      Step s (.barrier g) (s.pass group g)

/-- All threads at the beginning of the code of their warps. -/
def initial (program : ω → List (Instr θ α β σ)) (shared : α → β) (priv : ω × θ → σ) :
    State ω θ α β σ :=
  ⟨shared, priv, fun p => program p.1⟩

def machine (program : ω → List (Instr θ α β σ)) (shared : α → β) (priv : ω × θ → σ) :
    Machine (State ω θ α β σ) (Event ω θ κ) :=
  ⟨fun s => s = initial program shared priv, Step group⟩

end

/-! ### The invariant -/

section

variable [DecidableEq α]

/-- A thread that has done the beginning of the current phase. -/
structure At (owner : α → Option (ω × θ)) (S : View θ α β σ) (current after : List (Instr θ α β σ))
    (s : State ω θ α β σ) (p : ω × θ) (done left : List (Instr θ α β σ)) : Prop where
  current_eq : current = done ++ left
  todo_eq : s.todo p = left ++ after
  priv_eq : s.priv p = (lockstep owner done S).priv p.2
  shared_eq : ∀ a, owner a = some p → s.shared a = (lockstep owner done S).shared a

/-- A warp between two barriers: what it sees at the first, the code up to the second and the
code behind it. -/
structure InPhase (owner : α → Option (ω × θ)) (final : View θ α β σ) (w : ω) (m : Mode)
    (S : View θ α β σ) (current after : List (Instr θ α β σ)) (s : State ω θ α β σ) : Prop where
  noBarrier : NoBarrier current
  after_eq : after = [] ∨ ∃ next rest, after = .barrier next :: rest
  disciplined : Disciplined owner w m (current ++ after) S
  rest_eq : lockstep owner (current ++ after) S = final
  thread : ∀ t, ∃ done left, At owner S current after s (w, t) done left

/-- Every warp is between two barriers. -/
def Inv (owner : α → Option (ω × θ)) (final : ω → View θ α β σ) (s : State ω θ α β σ) : Prop :=
  ∀ w, ∃ m S current after, InPhase owner (final w) w m S current after s

variable {owner : α → Option (ω × θ)} {final : ω → View θ α β σ} {w : ω} {s : State ω θ α β σ}

/-- The code of a warp, in its mode. -/
theorem exists_inPhase {m : Mode} {code : List (Instr θ α β σ)} {S F : View θ α β σ}
    (hdisc : Disciplined owner w m code S) (hfinal : lockstep owner code S = F)
    (htodo : ∀ t, s.todo (w, t) = code) (hpriv : ∀ t, s.priv (w, t) = S.priv t)
    (hshared : ∀ t a, owner a = some (w, t) → s.shared a = S.shared a) :
    ∃ m S current after, InPhase owner F w m S current after s := by
  obtain ⟨current, after, rfl, hcurrent, hafter⟩ := exists_phase code
  refine ⟨m, S, current, after, hcurrent, hafter, hdisc, hfinal, fun t => ⟨[], current, ?_⟩⟩
  exact ⟨rfl, htodo t, hpriv t, hshared t⟩

theorem At.noBarrier_done {S : View θ α β σ} {current after done left : List (Instr θ α β σ)}
    {p : ω × θ} (h : At owner S current after s p done left) (hcurrent : NoBarrier current) :
    NoBarrier done := fun y hy => hcurrent y (by
  rw [h.current_eq]
  exact List.mem_append_left _ hy)

/-- The code in front of a thread that is not at a barrier. -/
theorem At.left_eq {S : View θ α β σ} {current after done left code : List (Instr θ α β σ)}
    {p : ω × θ} {x : θ → Action α β σ} (h : At owner S current after s p done left)
    (hafter : after = [] ∨ ∃ next rest, after = .barrier next :: rest)
    (htodo : s.todo p = .act x :: code) : ∃ rest, left = .act x :: rest ∧ code = rest ++ after := by
  have hleft := h.todo_eq
  rw [htodo] at hleft
  cases left with
  | cons y rest =>
    obtain ⟨hy, hcode⟩ := List.cons.inj hleft
    exact ⟨rest, by rw [hy], hcode⟩
  | nil =>
    rcases hafter with rfl | ⟨next, rest, rfl⟩ <;> cases hleft

/-- In the reading mode all threads see the memory that the phase began with. -/
theorem InPhase.shared_of_read {S : View θ α β σ} {current after done left : List (Instr θ α β σ)}
    (h : InPhase owner (final w) w .read S current after s) {t : θ}
    (hat : At owner S current after s (w, t) done left) :
    (lockstep owner done S).shared = S.shared := by
  have hdisc := h.disciplined
  rw [hat.current_eq, List.append_assoc] at hdisc
  exact Barriers.shared_of_read (hat.noBarrier_done h.noBarrier) hdisc

/-- At a barrier all threads of a warp have come to the end of the phase. -/
theorem barrier_inv [Nonempty θ] [DecidableEq κ] {group : ω → κ} (h : Inv owner final s) {g : κ}
    (hg : ∀ p, group p.1 = g → ∃ next code, s.todo p = .barrier next :: code) :
    Inv owner final (s.pass group g) := by
  intro w
  obtain ⟨m, S, current, after, hphase⟩ := h w
  by_cases hw : group w = g
  · have hend : ∀ t, ∃ next code, after = .barrier next :: code
        ∧ At owner S current after s (w, t) current [] := by
      intro t
      obtain ⟨done, left, hat⟩ := hphase.thread t
      obtain ⟨next, code, hcode⟩ := hg (w, t) hw
      have htodo := hat.todo_eq
      rw [hcode] at htodo
      cases left with
      | nil =>
        have hdone : done = current := by rw [hat.current_eq, List.append_nil]
        exact ⟨next, code, htodo.symm, hdone ▸ hat⟩
      | cons x left =>
        -- no barrier in the middle of a phase
        obtain ⟨y, hy⟩ := hphase.noBarrier x (by rw [hat.current_eq]; simp)
        rw [hy] at htodo
        cases htodo
    obtain ⟨next, code, rfl, -⟩ := hend (Classical.arbitrary θ)
    have hdisc := (disciplined_append owner w).mp hphase.disciplined
    have hrest := hphase.rest_eq
    rw [lockstep_append] at hrest
    refine exists_inPhase (show Disciplined owner w next code _ from hdisc.2) hrest (fun t => ?_)
      (fun t => ?_) fun t a ha => ?_
    · obtain ⟨-, -, -, hat⟩ := hend t
      show (if group w = g then (s.todo (w, t)).tail else s.todo (w, t)) = code
      rw [if_pos hw, hat.todo_eq]
      rfl
    · obtain ⟨-, -, -, hat⟩ := hend t
      exact hat.priv_eq
    · obtain ⟨-, -, -, hat⟩ := hend t
      exact hat.shared_eq a ha
  · refine ⟨m, S, current, after, hphase.noBarrier, hphase.after_eq, hphase.disciplined,
      hphase.rest_eq, fun t => ?_⟩
    obtain ⟨done, left, hat⟩ := hphase.thread t
    exact ⟨done, left, hat.current_eq, (if_neg hw).trans hat.todo_eq, hat.priv_eq, hat.shared_eq⟩

variable [DecidableEq ω] [DecidableEq θ]

/-- A thread is where it is, whatever another one does. -/
theorem At.other {S : View θ α β σ} {current after done left code : List (Instr θ α β σ)}
    {p q : ω × θ} {m : Mode} {x : Action α β σ} (h : At owner S current after s q done left)
    (hne : q ≠ p) (hallowed : x.Allowed owner p.1 p.2 (s.priv p) m) :
    At owner S current after (s.act p x code) q done left where
  current_eq := h.current_eq
  todo_eq := (Function.update_of_ne hne _ _).trans h.todo_eq
  priv_eq := (Function.update_of_ne hne _ _).trans h.priv_eq
  shared_eq a ha := by
    refine (run_frame hallowed _ ?_).trans (h.shared_eq a ha)
    rw [ha]
    exact fun heq => hne (Option.some.inj heq)

/-- The action of a thread is the one that it takes in lockstep. -/
theorem At.next {m : Mode} {S : View θ α β σ} {current after done left : List (Instr θ α β σ)}
    {t : θ}
    {x : θ → Action α β σ} (h : InPhase owner (final w) w m S current after s)
    (hat : At owner S current after s (w, t) done (.act x :: left))
    (hallowed : (x t).Allowed owner w t (s.priv (w, t)) m) :
    At owner S current after (s.act (w, t) (x t) (left ++ after)) (w, t)
      (done ++ [.act x]) left := by
  have hread : m = .read → ∀ t' a, owner a = some (w, t') →
      s.shared a = (lockstep owner done S).shared a := by
    rintro rfl t' a ha
    obtain ⟨done', left', hat'⟩ := h.thread t'
    rw [hat'.shared_eq a ha, h.shared_of_read hat', h.shared_of_read hat]
  obtain ⟨hpriv, hshared⟩ := run_congr hallowed hat.shared_eq hread
  refine ⟨by rw [hat.current_eq]; simp, Function.update_self _ _ _, ?_, fun a ha => ?_⟩
  · rw [lockstep_append]
    refine (Function.update_self _ _ _).trans (hpriv.trans ?_)
    rw [hat.priv_eq]
    rfl
  · rw [lockstep_append]
    refine (hshared a ha).trans ?_
    rw [hat.priv_eq]
    simp [Instr.run, ha]

theorem act_inv (h : Inv owner final s) {p : ω × θ} {x : θ → Action α β σ}
    {code : List (Instr θ α β σ)} (htodo : s.todo p = .act x :: code) :
    Inv owner final (s.act p (x p.2) code)
      ∧ ∃ m, (x p.2).Allowed owner p.1 p.2 (s.priv p) m := by
  obtain ⟨w, t⟩ := p
  obtain ⟨m, S, current, after, hphase⟩ := h w
  obtain ⟨done, left, hat⟩ := hphase.thread t
  obtain ⟨left, rfl, rfl⟩ := hat.left_eq hphase.after_eq htodo
  have hdisc := hphase.disciplined
  rw [hat.current_eq, List.append_assoc] at hdisc
  have hallowed := disciplined_at (hat.noBarrier_done hphase.noBarrier) hdisc t
  rw [← hat.priv_eq] at hallowed
  refine ⟨fun w' => ?_, m, hallowed⟩
  by_cases hw : w' = w
  · subst hw
    refine ⟨m, S, current, after, hphase.noBarrier, hphase.after_eq, hphase.disciplined,
      hphase.rest_eq, fun t' => ?_⟩
    by_cases ht : t' = t
    · rw [ht]
      exact ⟨_, _, At.next hphase hat hallowed⟩
    · obtain ⟨done', left', hat'⟩ := hphase.thread t'
      exact ⟨done', left', hat'.other (fun heq => ht (Prod.ext_iff.mp heq).2) hallowed⟩
  · obtain ⟨m', S', current', after', hphase'⟩ := h w'
    refine ⟨m', S', current', after', hphase'.noBarrier, hphase'.after_eq, hphase'.disciplined,
      hphase'.rest_eq, fun t' => ?_⟩
    obtain ⟨done', left', hat'⟩ := hphase'.thread t'
    exact ⟨done', left', hat'.other (fun heq => hw (Prod.ext_iff.mp heq).1) hallowed⟩

end

/-! ### Every schedule -/

section

variable [DecidableEq α] [DecidableEq ω] [DecidableEq θ] [DecidableEq κ] [Nonempty θ]
  {owner : α → Option (ω × θ)} {group : ω → κ} {program : ω → List (Instr θ α β σ)}
  {shared : α → β} {priv : ω × θ → σ} {s : State ω θ α β σ}
  {tr : List (State ω θ α β σ × Event ω θ κ)}

/-- What a warp sees at the beginning. -/
def start (shared : α → β) (priv : ω × θ → σ) (w : ω) : View θ α β σ :=
  ⟨shared, fun t => priv (w, t)⟩

/-- The code of the warps keeps to the discipline, and warps that wait for each other meet at the
same barriers. -/
structure Well (owner : α → Option (ω × θ)) (group : ω → κ) (program : ω → List (Instr θ α β σ))
    (shared : α → β) (priv : ω × θ → σ) : Prop where
  disciplined : ∀ w, Disciplined owner w .own (program w) (start shared priv w)
  even : ∀ w w', group w = group w' → barriers (program w) = barriers (program w')

/-- At any time of any schedule. -/
theorem inv_run (hw : Well owner group program shared priv)
    (h : (machine group program shared priv).Run tr s) :
    Inv owner (fun w => lockstep owner (program w) (start shared priv w)) s
      ∧ (∀ a, owner a = none → s.shared a = shared a)
      ∧ ∀ p q, group p.1 = group q.1 → barriers (s.todo p) = barriers (s.todo q) := by
  refine h.invariant (P := fun s => Inv owner _ s ∧ (∀ a, owner a = none → s.shared a = shared a)
    ∧ ∀ p q, group p.1 = group q.1 → barriers (s.todo p) = barriers (s.todo q)) ?_ ?_
  · intro s hs
    obtain rfl : s = initial program shared priv := hs
    exact ⟨fun w => exists_inPhase (hw.disciplined w) rfl (fun _ => rfl) (fun _ => rfl)
      fun _ _ _ => rfl, fun _ _ => rfl, fun p q hpq => hw.even p.1 q.1 hpq⟩
  · rintro s e t ⟨hinv, hkept, heven⟩ hstep
    cases hstep with
    | act p x code htodo =>
      obtain ⟨hnext, m, hallowed⟩ := act_inv hinv htodo
      refine ⟨hnext, fun a ha => ?_, ?_⟩
      · exact (run_frame hallowed _ (by simp [ha])).trans (hkept a ha)
      · have hbarriers : ∀ q, barriers ((s.act p (x p.2) code).todo q) = barriers (s.todo q) := by
          intro q
          by_cases hq : q = p
          · rw [hq, htodo, barriers_act]
            exact congrArg barriers (Function.update_self _ _ _)
          · exact congrArg barriers (Function.update_of_ne hq _ _)
        intro q q' hqq
        rw [hbarriers, hbarriers]
        exact heven q q' hqq
    | barrier g hg hall =>
      refine ⟨barrier_inv hinv hall, hkept, fun p q hpq => ?_⟩
      show barriers (if group p.1 = g then (s.todo p).tail else s.todo p)
        = barriers (if group q.1 = g then (s.todo q).tail else s.todo q)
      have hsame := heven p q hpq
      by_cases hp : group p.1 = g
      · obtain ⟨next, code, hcode⟩ := hall p hp
        obtain ⟨next', code', hcode'⟩ := hall q (hpq ▸ hp)
        rw [hcode, hcode', barriers_barrier, barriers_barrier] at hsame
        rw [if_pos hp, if_pos (hpq ▸ hp), hcode, hcode']
        exact Nat.succ.inj hsame
      · rw [if_neg hp, if_neg (hpq ▸ hp)]
        exact hsame

/-- As long as a thread has something to do, some thread can act or some group pass. -/
theorem finished_of_stuck (hw : Well owner group program shared priv)
    (h : (machine group program shared priv).Run tr s) (hstuck : ∀ e t, ¬ Step group s e t)
    (p : ω × θ) : s.todo p = [] := by
  obtain ⟨hinv, -, heven⟩ := inv_run hw h
  have hact : ∀ p x code, s.todo p ≠ .act x :: code := fun p x code htodo =>
    hstuck _ _ (.act s p x code htodo)
  by_contra hne
  have hpos : ∀ q, group q.1 = group p.1 → ∃ next code, s.todo q = .barrier next :: code := by
    intro q hq
    have hcount : 0 < barriers (s.todo p) := by
      cases hp : s.todo p with
      | nil => exact absurd hp hne
      | cons x code =>
        cases x with
        | act x => exact absurd hp (hact p x code)
        | barrier next => simp [barriers]
    rw [← heven q p hq] at hcount
    cases hq : s.todo q with
    | nil =>
      rw [hq] at hcount
      cases hcount
    | cons x code =>
      cases x with
      | act x => exact absurd hq (hact q x code)
      | barrier next => exact ⟨next, code, rfl⟩
  exact hstuck _ _ (.barrier s (group p.1) ⟨p.1, rfl⟩ hpos)

/-- A thread that has come to the end is where it is in lockstep. -/
theorem done_of_finished (hw : Well owner group program shared priv)
    (h : (machine group program shared priv).Run tr s) (hdone : ∀ p, s.todo p = []) (w : ω) :
    let S := lockstep owner (program w) (start shared priv w)
    ∀ t, s.priv (w, t) = S.priv t ∧ ∀ a, owner a = some (w, t) → s.shared a = S.shared a := by
  intro S t
  obtain ⟨m, S₀, current, after, hphase⟩ := (inv_run hw h).1 w
  obtain ⟨done, left, hat⟩ := hphase.thread t
  have htodo := hat.todo_eq
  rw [hdone (w, t)] at htodo
  obtain ⟨rfl, rfl⟩ := List.append_eq_nil_iff.mp htodo.symm
  have hrest := hphase.rest_eq
  rw [hat.current_eq, List.append_nil, List.append_nil] at hrest
  rw [hat.priv_eq, hrest]
  exact ⟨rfl, fun a ha => by rw [hat.shared_eq a ha, hrest]⟩

/-- The actions and barriers in front of all threads. -/
def left [Fintype ω] [Fintype θ] (s : State ω θ α β σ) : ℕ := ∑ p, (s.todo p).length

theorem left_step [Fintype ω] [Fintype θ] {t : State ω θ α β σ} {e : Event ω θ κ}
    (h : Step group s e t) : left t < left s := by
  cases h with
  | act p x code htodo =>
    refine Finset.sum_lt_sum (fun q _ => ?_) ⟨p, Finset.mem_univ p, ?_⟩
    · by_cases hq : q = p
      · rw [hq, htodo]
        show (Function.update s.todo p code p).length ≤ _
        rw [Function.update_self]
        exact Nat.le_succ _
      · exact (congrArg List.length (Function.update_of_ne hq _ _)).le
    · rw [htodo]
      show (Function.update s.todo p code p).length < _
      rw [Function.update_self]
      exact Nat.lt_succ_self _
  | barrier g hg hall =>
    obtain ⟨w, hw⟩ := hg
    have hlen : ∀ p, group p.1 = g → (s.todo p).tail.length < (s.todo p).length := by
      intro p hp
      obtain ⟨next, code, hcode⟩ := hall p hp
      rw [hcode]
      exact Nat.lt_succ_self _
    refine Finset.sum_lt_sum (fun q _ => ?_) ⟨(w, Classical.arbitrary θ), Finset.mem_univ _, ?_⟩
    · show (if group q.1 = g then (s.todo q).tail else s.todo q).length ≤ _
      split
      · exact (hlen q ‹_›).le
      · exact le_rfl
    · show (if group w = g then _ else _ : List _).length < _
      rw [if_pos hw]
      exact hlen _ hw

/-- Every schedule comes to an end. -/
theorem schedule_le [Fintype ω] [Fintype θ]
    (h : (machine group program shared priv).Run tr s) :
    tr.length + left s ≤ left (initial program shared priv : State ω θ α β σ) := by
  refine h.induction (P := fun tr s => tr.length + left s ≤ _) ?_ ?_
  · intro s hs
    obtain rfl : s = initial program shared priv := hs
    simp
  · intro tr s e t _ ih hstep
    have hless := left_step hstep
    rw [List.length_append, List.length_singleton]
    omega

/-- The threads can be run until nothing is left. -/
theorem exists_stuck [Fintype ω] [Fintype θ] (program : ω → List (Instr θ α β σ)) (shared : α → β)
    (priv : ω × θ → σ) :
    ∃ tr s, (machine group program shared priv).Run tr s ∧ ∀ e t, ¬ Step group s e t := by
  have hrest : ∀ n tr s, (machine group program shared priv).Run tr s → left s = n →
      ∃ tr s, (machine group program shared priv).Run tr s ∧ ∀ e t, ¬ Step group s e t := by
    intro n
    induction n using Nat.strong_induction_on with
    | _ n ih =>
      intro tr s h hn
      by_cases hstuck : ∀ e t, ¬ Step group s e t
      · exact ⟨tr, s, h, hstuck⟩
      · push Not at hstuck
        obtain ⟨e, t, hstep⟩ := hstuck
        exact ih _ (hn ▸ left_step hstep) _ t (h.concat hstep) rfl
  exact hrest _ [] _ ⟨_, rfl, .refl⟩ rfl

end

end Barriers
