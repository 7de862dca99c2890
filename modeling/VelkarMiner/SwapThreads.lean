/-
The slot among threads (`src/swap_rust.rs`).

Threads call `swap`, `get_changed` and `wait_for_change` on any number of handles;
each access to the slot, to the mutex and to the condition variable is a step.  A
stored value lives at an address, which the allocator picks among all that no `Arc`
or guard refers to, so that the addresses of dropped instances come back; the code
compares addresses.

* `Step` — the calls, step by step;
* `Exclusive`, `Borrow` — who holds the mutex, and who works with a handle;
* `holds_cases`, `Distinct` — where references come from, and what their addresses tell.
-/
import VelkarMiner.Runs

namespace Watch

variable {ι η α : Type}

/-- An allocation. -/
structure Arc (α : Type) where
  addr : ℕ
  value : α

/-- What is stored in the slot, and the number of swaps that had been made by then. -/
structure Stored (α : Type) where
  index : ℕ
  arc : Option (Arc α)

/-- `RefCnt::as_ptr`: the pointer of `None` is null. -/
def Stored.ptr (x : Stored α) : Option ℕ := x.arc.map Arc.addr

/-- The very same allocation, or `None` twice. -/
def Stored.Same (x y : Stored α) : Prop := x = y ∨ x.arc = none ∧ y.arc = none

/-- Where a thread is.  The flag tells whether `get_changed_inner` is called from
`wait_for_change`. -/
inductive Pc (η α : Type) where
  | idle
  -- `swap`
  | store (new : Option (Arc α))
  | wake (old : Stored α)
  | notify (old : Stored α)
  | unlock (old : Stored α)
  | returned (old : Stored α)
  -- `get_changed_inner`
  | load (h : η) (waiting : Bool)
  | compare (h : η) (guard : Stored α) (waiting : Bool)
  -- `wait_for_change`, which also locks the mutex again when it is woken up
  | lock (h : η)
  | wait (h : η)
  | blocked (h : η)
  | leave (h : η)

/-- A handle, which is made once. -/
inductive Handle (α : Type) where
  | unborn
  | live (cached : Stored α)
  | dropped

structure World (ι η α : Type) where
  inner : Stored α
  mutex : Option ι
  handles : η → Handle α
  threads : ι → Pc η α

inductive Event (ι η α : Type) where
  | alloc (t : ι)
  | swap (t : ι) (x : Stored α)
  | load (t : ι) (h : η) (x : Stored α)
  | report (t : ι) (h : η) (x : Stored α)
  | same (t : ι) (h : η)
  | clone (h h' : η) (x : Stored α)
  | drop (h : η)
  | go (t : ι)

/-! ### References -/

/-- The allocation that is about to be stored. -/
def Pc.new : Pc η α → Option (Arc α)
  | .store new => new
  | _ => none

/-- What a thread has taken out of the slot: the result of a swap, or the guard of a load. -/
def Pc.stored : Pc η α → Option (Stored α)
  | .wake old | .notify old | .unlock old | .returned old => some old
  | .compare _ guard _ => some guard
  | _ => none

/-- The handle a thread works with. -/
def Pc.handle : Pc η α → Option η
  | .load h _ | .compare h _ _ | .lock h | .wait h | .blocked h | .leave h => some h
  | _ => none

/-- The thread holds the mutex. -/
def Pc.Critical : Pc η α → Prop
  | .notify _ | .unlock _ | .wait _ | .leave _ => True
  | .load _ waiting | .compare _ _ waiting => waiting = true
  | _ => False

/-- What `notify_all` does to a thread. -/
def Pc.notified : Pc η α → Pc η α
  | .blocked h => .lock h
  | pc => pc

/-- Something that has been stored is referred to: by the slot, a handle or a thread. -/
def World.Holds (s : World ι η α) (x : Stored α) : Prop :=
  x = s.inner ∨ (∃ h, s.handles h = .live x) ∨ ∃ t, (s.threads t).stored = some x

/-- An allocation with this address is referred to. -/
def World.Occupied (s : World ι η α) (addr : ℕ) : Prop :=
  (∃ x, s.Holds x ∧ ∃ a ∈ x.arc, a.addr = addr) ∨ ∃ t, ∃ a ∈ (s.threads t).new, a.addr = addr

/-- A thread works with the handle. -/
def World.Borrowed (s : World ι η α) (h : η) : Prop := ∃ t, (s.threads t).handle = some h

/-- The holder of the mutex is the one thread that is in a critical section. -/
def Exclusive (s : World ι η α) : Prop := ∀ t, (s.threads t).Critical ↔ s.mutex = some t

theorem critical_notified (pc : Pc η α) : pc.notified.Critical ↔ pc.Critical := by
  cases pc <;> exact Iff.rfl

/-- A thread has the handle it works with for itself. -/
structure Borrow (s : World ι η α) : Prop where
  live : ∀ t h, (s.threads t).handle = some h → ∃ cached, s.handles h = .live cached
  unique : ∀ t u h, (s.threads t).handle = some h → (s.threads u).handle = some h → t = u

/-- Threads go on with their handles or return them, and no handle in use is dropped. -/
theorem Borrow.mono {s s' : World ι η α} (hb : Borrow s)
    (hthreads : ∀ u h, (s'.threads u).handle = some h → (s.threads u).handle = some h)
    (hhandles : ∀ h cached, s.Borrowed h → s.handles h = .live cached →
      ∃ cached', s'.handles h = .live cached') : Borrow s' := by
  constructor
  · intro u h hu
    obtain ⟨cached, hlive⟩ := hb.live u h (hthreads u h hu)
    exact hhandles h cached ⟨u, hthreads u h hu⟩ hlive
  · intro u v h hu hv
    exact hb.unique u v h (hthreads u h hu) (hthreads v h hv)

theorem handle_notified (pc : Pc η α) : pc.notified.handle = pc.handle := by
  cases pc <;> rfl

theorem stored_notified (pc : Pc η α) : pc.notified.stored = pc.stored := by
  cases pc <;> rfl

theorem new_notified (pc : Pc η α) : pc.notified.new = pc.new := by
  cases pc <;> rfl

/-- Different references have different addresses: comparing pointers is comparing instances. -/
structure Distinct (s : World ι η α) : Prop where
  stored : ∀ x y, s.Holds x → s.Holds y → ∀ a ∈ x.arc, ∀ b ∈ y.arc, a.addr = b.addr → x = y
  new_stored : ∀ t, ∀ a ∈ (s.threads t).new, ∀ y, s.Holds y → ∀ b ∈ y.arc, a.addr ≠ b.addr
  new_new : ∀ t u, ∀ a ∈ (s.threads t).new, ∀ b ∈ (s.threads u).new, a.addr = b.addr → t = u

/-- References with the same pointer are the same, or both are `None`. -/
theorem Distinct.same {s : World ι η α} (hd : Distinct s) {x y : Stored α} (hx : s.Holds x)
    (hy : s.Holds y) (hptr : x.ptr = y.ptr) : x.Same y := by
  cases hxa : x.arc with
  | none =>
    right
    refine ⟨hxa, ?_⟩
    simpa [Stored.ptr, hxa] using hptr.symm
  | some a =>
    left
    obtain ⟨b, hb, hab⟩ : ∃ b, y.arc = some b ∧ b.addr = a.addr := by
      simpa [Stored.ptr, hxa] using hptr.symm
    exact hd.stored x y hx hy a hxa b hb hab.symm

variable [DecidableEq ι]

/-- The world after a thread has moved. -/
def World.set (s : World ι η α) (t : ι) (pc : Pc η α) : World ι η α :=
  { s with threads := Function.update s.threads t pc }

@[simp] theorem World.set_inner (s : World ι η α) (t : ι) (pc : Pc η α) :
    (s.set t pc).inner = s.inner := rfl

@[simp] theorem World.set_mutex (s : World ι η α) (t : ι) (pc : Pc η α) :
    (s.set t pc).mutex = s.mutex := rfl

@[simp] theorem World.set_handles (s : World ι η α) (t : ι) (pc : Pc η α) :
    (s.set t pc).handles = s.handles := rfl

@[simp] theorem World.set_threads_self (s : World ι η α) (t : ι) (pc : Pc η α) :
    (s.set t pc).threads t = pc := Function.update_self ..

theorem World.set_threads_of_ne (s : World ι η α) {t u : ι} (h : u ≠ t) (pc : Pc η α) :
    (s.set t pc).threads u = s.threads u := Function.update_of_ne h ..

/-! ### The mutex -/

theorem Exclusive.set {s : World ι η α} (h : Exclusive s) {t : ι} {pc : Pc η α}
    (hpc : pc.Critical ↔ (s.threads t).Critical) : Exclusive (s.set t pc) := by
  intro u
  obtain rfl | hu := eq_or_ne u t
  · rw [World.set_threads_self, hpc]
    exact h u
  · rw [World.set_threads_of_ne s hu]
    exact h u

/-- A thread locks the mutex. -/
theorem Exclusive.lock {s : World ι η α} (h : Exclusive s) {t : ι} {pc : Pc η α}
    (hfree : s.mutex = none) (hpc : pc.Critical) :
    Exclusive ({ s with mutex := some t }.set t pc) := by
  intro u
  obtain rfl | hu := eq_or_ne u t
  · rw [World.set_threads_self]
    exact iff_of_true hpc rfl
  · rw [World.set_threads_of_ne _ hu]
    refine iff_of_false ?_ fun heq => hu (Option.some.inj heq).symm
    rw [h u, hfree]
    simp

/-- The holder of the mutex unlocks it. -/
theorem Exclusive.unlock {s : World ι η α} (h : Exclusive s) {t : ι} {pc : Pc η α}
    (hheld : (s.threads t).Critical) (hpc : ¬ pc.Critical) :
    Exclusive ({ s with mutex := none }.set t pc) := by
  intro u
  obtain rfl | hu := eq_or_ne u t
  · rw [World.set_threads_self]
    exact iff_of_false hpc (by simp)
  · rw [World.set_threads_of_ne _ hu]
    refine iff_of_false ?_ (by simp)
    rw [h u, (h t).mp hheld]
    exact fun heq => hu (Option.some.inj heq).symm

/-! ### Handles -/

/-- A thread goes on with its handle, or returns it. -/
theorem Borrow.set {s s' : World ι η α} (hb : Borrow s) {t : ι} {pc : Pc η α}
    (hthreads : s'.threads = Function.update s.threads t pc) (hhandles : s'.handles = s.handles)
    (hpc : ∀ h, pc.handle = some h → (s.threads t).handle = some h) : Borrow s' := by
  refine hb.mono ?_ fun h cached _ hlive => ⟨cached, by rw [hhandles, hlive]⟩
  intro u h hu
  rw [hthreads] at hu
  obtain rfl | hne := eq_or_ne u t
  · rw [Function.update_self] at hu
    exact hpc h hu
  · rwa [Function.update_of_ne hne] at hu

/-- A thread begins to work with a handle that no other thread works with. -/
theorem Borrow.take {s : World ι η α} (hb : Borrow s) {t : ι} {pc : Pc η α} {h : η}
    {cached : Stored α} (hlive : s.handles h = .live cached) (hfree : ¬ s.Borrowed h)
    (hpc : pc.handle = some h) : Borrow (s.set t pc) := by
  have hold : ∀ u h', ((s.set t pc).threads u).handle = some h' →
      u = t ∧ h' = h ∨ u ≠ t ∧ (s.threads u).handle = some h' := by
    intro u h' hu
    obtain rfl | hne := eq_or_ne u t
    · rw [World.set_threads_self, hpc] at hu
      exact Or.inl ⟨rfl, (Option.some.inj hu).symm⟩
    · rw [World.set_threads_of_ne s hne] at hu
      exact Or.inr ⟨hne, hu⟩
  constructor
  · intro u h' hu
    obtain ⟨-, rfl⟩ | ⟨-, hu⟩ := hold u h' hu
    · exact ⟨cached, hlive⟩
    · exact hb.live u h' hu
  · intro u v h' hu hv
    obtain ⟨rfl, rfl⟩ | ⟨-, hu⟩ := hold u h' hu
    · obtain ⟨rfl, -⟩ | ⟨-, hv⟩ := hold v h' hv
      · rfl
      · exact absurd ⟨v, hv⟩ hfree
    · obtain ⟨-, rfl⟩ | ⟨-, hv⟩ := hold v h' hv
      · exact absurd ⟨u, hu⟩ hfree
      · exact hb.unique u v h' hu hv

theorem holds_update {s s' : World ι η α} {t : ι} {pc : Pc η α} {x : Stored α} (hx : s'.Holds x)
    (hthreads : s'.threads = Function.update s.threads t pc) (hhandles : s'.handles = s.handles) :
    x = s'.inner ∨ s.Holds x ∨ pc.stored = some x := by
  obtain hinner | ⟨h, hh⟩ | ⟨u, hu⟩ := hx
  · exact Or.inl hinner
  · rw [hhandles] at hh
    exact Or.inr (Or.inl (Or.inr (Or.inl ⟨h, hh⟩)))
  · rw [hthreads] at hu
    obtain rfl | hne := eq_or_ne u t
    · rw [Function.update_self] at hu
      exact Or.inr (Or.inr hu)
    · rw [Function.update_of_ne hne] at hu
      exact Or.inr (Or.inl (Or.inr (Or.inr ⟨u, hu⟩)))

/-! ### The calls -/

variable [DecidableEq η]

inductive Step : World ι η α → Event ι η α → World ι η α → Prop
  -- `swap`: the value is allocated, then stored, then the waiting threads are woken up
  | alloc (s : World ι η α) (t : ι) (addr : ℕ) (val : α) (hpc : s.threads t = .idle)
      (hfree : ¬ s.Occupied addr) : Step s (.alloc t) (s.set t (.store (some ⟨addr, val⟩)))
  | allocNone (s : World ι η α) (t : ι) (hpc : s.threads t = .idle) :
      Step s (.alloc t) (s.set t (.store none))
  | swap (s : World ι η α) (t : ι) (new : Option (Arc α)) (hpc : s.threads t = .store new) :
      Step s (.swap t ⟨s.inner.index + 1, new⟩)
        ({ s with inner := ⟨s.inner.index + 1, new⟩ }.set t (.wake s.inner))
  | wakeLock (s : World ι η α) (t : ι) (old : Stored α) (hpc : s.threads t = .wake old)
      (hfree : s.mutex = none) :
      Step s (.go t) ({ s with mutex := some t }.set t (.notify old))
  | notifyAll (s : World ι η α) (t : ι) (old : Stored α) (hpc : s.threads t = .notify old) :
      Step s (.go t)
        ({ s with threads := fun u => (s.threads u).notified }.set t (.unlock old))
  | wakeUnlock (s : World ι η α) (t : ι) (old : Stored α) (hpc : s.threads t = .unlock old) :
      Step s (.go t) ({ s with mutex := none }.set t (.returned old))
  | dropOld (s : World ι η α) (t : ι) (old : Stored α) (hpc : s.threads t = .returned old) :
      Step s (.go t) (s.set t .idle)
  -- `get_changed` and `wait_for_change` have the handle for themselves
  | getChanged (s : World ι η α) (t : ι) (h : η) (cached : Stored α) (hpc : s.threads t = .idle)
      (hlive : s.handles h = .live cached) (hfree : ¬ s.Borrowed h) :
      Step s (.go t) (s.set t (.load h false))
  | waitForChange (s : World ι η α) (t : ι) (h : η) (cached : Stored α)
      (hpc : s.threads t = .idle) (hlive : s.handles h = .live cached) (hfree : ¬ s.Borrowed h) :
      Step s (.go t) (s.set t (.lock h))
  | lock (s : World ι η α) (t : ι) (h : η) (hpc : s.threads t = .lock h) (hfree : s.mutex = none) :
      Step s (.go t) ({ s with mutex := some t }.set t (.load h true))
  | load (s : World ι η α) (t : ι) (h : η) (waiting : Bool) (hpc : s.threads t = .load h waiting) :
      Step s (.load t h s.inner) (s.set t (.compare h s.inner waiting))
  | changed (s : World ι η α) (t : ι) (h : η) (cached guard : Stored α) (waiting : Bool)
      (hpc : s.threads t = .compare h guard waiting) (hlive : s.handles h = .live cached)
      (hptr : cached.ptr ≠ guard.ptr) :
      Step s (.report t h guard)
        ({ s with handles := Function.update s.handles h (.live guard) }.set t
          (if waiting then .leave h else .idle))
  | unchanged (s : World ι η α) (t : ι) (h : η) (cached guard : Stored α) (waiting : Bool)
      (hpc : s.threads t = .compare h guard waiting) (hlive : s.handles h = .live cached)
      (hptr : cached.ptr = guard.ptr) :
      Step s (.same t h) (s.set t (if waiting then .wait h else .idle))
  | leave (s : World ι η α) (t : ι) (h : η) (hpc : s.threads t = .leave h) :
      Step s (.go t) ({ s with mutex := none }.set t .idle)
  -- `Condvar::wait`, which may also end by itself
  | wait (s : World ι η α) (t : ι) (h : η) (hpc : s.threads t = .wait h) :
      Step s (.go t) ({ s with mutex := none }.set t (.blocked h))
  | spurious (s : World ι η α) (t : ι) (h : η) (hpc : s.threads t = .blocked h) :
      Step s (.go t) (s.set t (.lock h))
  -- a handle is cloned with what it has cached
  | clone (s : World ι η α) (h h' : η) (cached : Stored α) (hlive : s.handles h = .live cached)
      (hfree : ¬ s.Borrowed h) (hnew : s.handles h' = .unborn) :
      Step s (.clone h h' cached)
        { s with handles := Function.update s.handles h' (.live cached) }
  | drop (s : World ι η α) (h : η) (cached : Stored α) (hlive : s.handles h = .live cached)
      (hfree : ¬ s.Borrowed h) :
      Step s (.drop h) { s with handles := Function.update s.handles h .dropped }

/-- `init` or `empty`: one handle, which has cached what is in the slot. -/
structure Initial (s : World ι η α) : Prop where
  index_eq : s.inner.index = 0
  mutex_eq : s.mutex = none
  handles_eq : ∃ h, s.handles = Function.update (fun _ => .unborn) h (.live s.inner)
  threads_eq : s.threads = fun _ => .idle

def machine (ι η α : Type) [DecidableEq ι] [DecidableEq η] :
    Machine (World ι η α) (Event ι η α) := ⟨Initial, Step⟩

theorem exclusive {tr : List (World ι η α × Event ι η α)} {s : World ι η α}
    (h : (machine ι η α).Run tr s) : Exclusive s := by
  refine h.invariant ?_ ?_
  · intro s hs t
    rw [hs.threads_eq, hs.mutex_eq]
    exact iff_of_false id (by simp)
  · intro s e s' hex hstep
    cases hstep with
    | alloc t addr val hpc | allocNone t hpc | dropOld t old hpc | getChanged t h cached hpc
    | waitForChange t h cached hpc | load t h waiting hpc | spurious t h hpc =>
      exact hex.set (by simp [hpc, Pc.Critical])
    | swap t new hpc =>
      exact Exclusive.set (s := { s with inner := _ }) hex (by simp [hpc, Pc.Critical])
    | wakeLock t old hpc hfree | lock t h hpc hfree => exact hex.lock hfree (by trivial)
    | wakeUnlock t old hpc | leave t h hpc | wait t h hpc =>
      exact hex.unlock (by rw [hpc]; trivial) id
    | notifyAll t old hpc =>
      refine Exclusive.set (s := { s with threads := fun u => (s.threads u).notified }) ?_ ?_
      · exact fun u => (critical_notified _).trans (hex u)
      · simp [hpc, Pc.Critical, Pc.notified]
    | changed t h cached guard waiting hpc hlive hptr =>
      refine Exclusive.set (s := { s with handles := _ }) hex ?_
      rw [show ({ s with handles := _ } : World ι η α).threads t = _ from hpc]
      cases waiting <;> simp [Pc.Critical]
    | unchanged t h cached guard waiting hpc hlive hptr =>
      refine hex.set ?_
      rw [hpc]
      cases waiting <;> simp [Pc.Critical]
    | clone | drop => exact hex

theorem borrow {tr : List (World ι η α × Event ι η α)} {s : World ι η α}
    (h : (machine ι η α).Run tr s) : Borrow s := by
  refine h.invariant ?_ ?_
  · intro s hs
    constructor
    · intro t h ht
      rw [hs.threads_eq] at ht
      cases ht
    · intro t u h ht
      rw [hs.threads_eq] at ht
      cases ht
  · intro s e s' hb hstep
    cases hstep with
    -- these end a borrow or never had one
    | alloc t | allocNone t | dropOld t | swap t | wakeLock t | wakeUnlock t | leave t =>
      exact hb.set (t := t) rfl rfl (by simp [Pc.handle])
    -- these keep the handle they hold
    | load t h waiting hpc | spurious t h hpc | lock t h hpc | wait t h hpc =>
      exact hb.set (t := t) rfl rfl (by simp [hpc, Pc.handle])
    -- the only steps that borrow: the handle must be free
    | getChanged t h cached hpc hlive hfree | waitForChange t h cached hpc hlive hfree =>
      exact hb.take hlive hfree rfl
    | unchanged t h cached guard waiting hpc hlive hptr =>
      refine hb.set (t := t) rfl rfl ?_
      cases waiting <;> simp [hpc, Pc.handle]
    | notifyAll t old hpc =>
      have hb' : Borrow { s with threads := fun u => (s.threads u).notified } := by
        refine hb.mono ?_ fun h cached _ hlive => ⟨cached, hlive⟩
        intro u h hu
        rwa [handle_notified] at hu
      exact hb'.set (t := t) rfl rfl (by simp [Pc.handle])
    -- the guard replaces the cached value of a live handle, which stays live
    | changed t h cached guard waiting hpc hlive hptr =>
      have hb' : Borrow { s with handles := Function.update s.handles h (.live guard) } := by
        refine hb.mono (fun u k hu => hu) fun k c _ hc => ?_
        obtain rfl | hne := eq_or_ne k h
        · exact ⟨guard, Function.update_self ..⟩
        · exact ⟨c, (Function.update_of_ne hne ..).trans hc⟩
      refine hb'.set (t := t) rfl rfl ?_
      cases waiting <;> simp [hpc, Pc.handle]
    -- the new handle is not one that a thread holds
    | clone h h' cached hlive hfree hnew =>
      refine hb.mono (fun u k hu => hu) fun k c _ hc => ?_
      have hne : k ≠ h' := by
        rintro rfl
        rw [hnew] at hc
        cases hc
      exact ⟨c, (Function.update_of_ne hne ..).trans hc⟩
    | drop h cached hlive hfree =>
      refine hb.mono (fun u k hu => hu) fun k c hk hc => ?_
      have hne : k ≠ h := by
        rintro rfl
        exact hfree hk
      exact ⟨c, (Function.update_of_ne hne ..).trans hc⟩

/-! ### Addresses -/

omit [DecidableEq ι] in
/-- A handle that changes brings in only what it caches. -/
theorem holds_handle {s s' : World ι η α} {h : η} {v : Handle α} {x : Stored α} (hx : s'.Holds x)
    (hinner : s'.inner = s.inner) (hhandles : s'.handles = Function.update s.handles h v)
    (hthreads : s'.threads = s.threads) : v = .live x ∨ s.Holds x := by
  obtain hx | ⟨k, hk⟩ | ⟨u, hu⟩ := hx
  · exact Or.inr (Or.inl (hx.trans hinner))
  · rw [hhandles] at hk
    obtain rfl | hne := eq_or_ne k h
    · rw [Function.update_self] at hk
      exact Or.inl hk
    · rw [Function.update_of_ne hne] at hk
      exact Or.inr (Or.inr (Or.inl ⟨k, hk⟩))
  · rw [hthreads] at hu
    exact Or.inr (Or.inr (Or.inr ⟨u, hu⟩))

/-- Only `swap` brings something new into the slot, the handles and the threads. -/
theorem holds_cases {s s' : World ι η α} {e : Event ι η α} (h : Step s e s') {x : Stored α}
    (hx : s'.Holds x) : s.Holds x ∨ ∃ t, e = .swap t x := by
  have hinner : s.Holds s.inner := Or.inl rfl
  have hthread : ∀ {t}, (s.threads t).stored = some x → s.Holds x :=
    fun {t} ht => Or.inr (Or.inr ⟨t, ht⟩)
  cases h with
  | swap t new hpc =>
    obtain rfl | hx | hx := holds_update (s := s) (t := t) hx rfl rfl
    · exact Or.inr ⟨t, rfl⟩
    · exact Or.inl hx
    · obtain rfl : s.inner = x := Option.some.inj hx
      exact Or.inl hinner
  -- what a thread loads was in the slot
  | load t h waiting hpc =>
    obtain rfl | hx | hx := holds_update (s := s) (t := t) hx rfl rfl
    · exact Or.inl hinner
    · exact Or.inl hx
    · obtain rfl : s.inner = x := Option.some.inj hx
      exact Or.inl hinner
  | wakeLock t old hpc | wakeUnlock t old hpc =>
    obtain rfl | hx | hx := holds_update (s := s) (t := t) hx rfl rfl
    · exact Or.inl hinner
    · exact Or.inl hx
    · exact Or.inl (hthread (t := t) (by rw [hpc]; exact hx))
  | notifyAll t old hpc =>
    left
    obtain rfl | ⟨h, hh⟩ | ⟨u, hu⟩ := hx
    · exact hinner
    · exact Or.inr (Or.inl ⟨h, hh⟩)
    · obtain rfl | hne := eq_or_ne u t
      · rw [World.set_threads_self] at hu
        exact hthread (t := u) (by rw [hpc]; exact hu)
      · rw [World.set_threads_of_ne _ hne, stored_notified] at hu
        exact hthread hu
  -- the thread hands its guard over to the handle
  | changed t h cached guard waiting hpc hlive hptr =>
    left
    obtain rfl | hx | hx := holds_update (s := { s with handles := _ }) (t := t) hx rfl rfl
    · exact hinner
    · obtain hguard | hx := holds_handle (s := s) hx rfl rfl rfl
      · obtain rfl := Handle.live.inj hguard
        exact hthread (t := t) (by rw [hpc]; rfl)
      · exact hx
    · cases waiting <;> cases hx
  | unchanged t h cached guard waiting hpc hlive hptr =>
    obtain rfl | hx | hx := holds_update (s := s) (t := t) hx rfl rfl
    · exact Or.inl hinner
    · exact Or.inl hx
    · cases waiting <;> cases hx
  -- a clone caches what the cloned handle does
  | clone h h' cached hlive hfree hnew =>
    left
    obtain hcached | hx := holds_handle (s := s) hx rfl rfl rfl
    · obtain rfl := Handle.live.inj hcached
      exact Or.inr (Or.inl ⟨h, hlive⟩)
    · exact hx
  | drop h cached hlive hfree =>
    left
    obtain hdropped | hx := holds_handle (s := s) hx rfl rfl rfl
    · cases hdropped
    · exact hx
  | alloc t | allocNone t | dropOld t | getChanged t | waitForChange t | lock t | leave t | wait t
  | spurious t =>
    obtain rfl | hx | hx := holds_update (s := s) (t := t) hx rfl rfl
    · exact Or.inl hinner
    · exact Or.inl hx
    · cases hx

/-- A new allocation is made at an address that is not occupied. -/
theorem new_cases {s s' : World ι η α} {e : Event ι η α} (h : Step s e s') {u : ι} {a : Arc α}
    (ha : a ∈ (s'.threads u).new) :
    a ∈ (s.threads u).new ∨ e = .alloc u ∧ ¬ s.Occupied a.addr := by
  have hset :
      ∀ {t : ι} {pc : Pc η α} {r : World ι η α}, (∀ v, (r.threads v).new = (s.threads v).new) →
      pc.new = none → a ∈ ((r.set t pc).threads u).new → a ∈ (s.threads u).new := by
    intro t pc r hr hpc ha
    obtain rfl | hne := eq_or_ne u t
    · rw [World.set_threads_self, hpc] at ha
      cases ha
    · rwa [World.set_threads_of_ne _ hne, hr] at ha
  cases h with
  | alloc t addr val hpc hfree =>
    obtain rfl | hne := eq_or_ne u t
    · rw [World.set_threads_self] at ha
      obtain rfl : _ = a := Option.some.inj ha
      exact Or.inr ⟨rfl, hfree⟩
    · rw [World.set_threads_of_ne _ hne] at ha
      exact Or.inl ha
  | changed t h cached guard waiting | unchanged t h cached guard waiting =>
    exact Or.inl (hset (fun _ => rfl) (by cases waiting <;> rfl) ha)
  | notifyAll t old hpc => exact Or.inl (hset (fun v => new_notified _) rfl ha)
  | clone | drop => exact Or.inl ha
  | _ => exact Or.inl (hset (fun _ => rfl) rfl ha)

/-- What is swapped in is what the thread has allocated, and the thread gives it away. -/
theorem swap_cases {s s' : World ι η α} {t : ι} {x : Stored α} (h : Step s (.swap t x) s') :
    x = ⟨s.inner.index + 1, (s.threads t).new⟩ ∧ s'.inner = x ∧ (s'.threads t).new = none := by
  cases h with
  | swap _ new hpc =>
    rw [World.set_threads_self, hpc]
    exact ⟨rfl, rfl, rfl⟩

theorem Distinct.step {s s' : World ι η α} {e : Event ι η α} (hd : Distinct s)
    (h : Step s e s') : Distinct s' := by
  -- an allocation that has just been stored differs from whatever was stored before
  have hnew : ∀ {t x y}, e = .swap t x → s.Holds y → ∀ a ∈ x.arc, ∀ b ∈ y.arc, a.addr ≠ b.addr := by
    rintro t x y rfl hy a ha b hb
    obtain ⟨rfl, -, -⟩ := swap_cases h
    exact hd.new_stored t a ha y hy b hb
  refine ⟨?_, ?_, ?_⟩
  · intro x y hx hy a ha b hb hab
    obtain hx | ⟨t, rfl⟩ := holds_cases h hx
    · obtain hy | ⟨u, he⟩ := holds_cases h hy
      · exact hd.stored x y hx hy a ha b hb hab
      · exact absurd hab.symm (hnew he hx b hb a ha)
    · obtain hy | ⟨u, he⟩ := holds_cases h hy
      · exact absurd hab (hnew rfl hy a ha b hb)
      · cases he
        rfl
  · intro t a ha y hy b hb hab
    obtain hold | ⟨rfl, hfree⟩ := new_cases h ha
    · obtain hy | ⟨u, rfl⟩ := holds_cases h hy
      · exact hd.new_stored t a hold y hy b hb hab
      · obtain ⟨rfl, -, hgone⟩ := swap_cases h
        obtain rfl : t = u := hd.new_new t u a hold b hb hab
        rw [hgone] at ha
        cases ha
    · obtain hy | ⟨u, he⟩ := holds_cases h hy
      · exact hfree (Or.inl ⟨y, hy, b, hb, hab.symm⟩)
      · cases he
  · intro t u a ha b hb hab
    obtain ha | ⟨rfl, hfree⟩ := new_cases h ha
    · obtain hb | ⟨rfl, hfree⟩ := new_cases h hb
      · exact hd.new_new t u a ha b hb hab
      · exact absurd (Or.inr ⟨t, a, ha, hab⟩) hfree
    · obtain hb | ⟨he, hfree'⟩ := new_cases h hb
      · exact absurd (Or.inr ⟨u, b, hb, hab.symm⟩) hfree
      · cases he
        rfl

omit [DecidableEq ι] in
/-- At the start everything refers to the content of the slot. -/
theorem Initial.holds {s : World ι η α} (hs : Initial s) {x : Stored α} (hx : s.Holds x) :
    x = s.inner := by
  obtain ⟨h, hhandles⟩ := hs.handles_eq
  obtain rfl | ⟨k, hk⟩ | ⟨t, ht⟩ := hx
  · rfl
  · rw [hhandles] at hk
    obtain rfl | hne := eq_or_ne k h
    · rw [Function.update_self] at hk
      exact (Handle.live.inj hk).symm
    · rw [Function.update_of_ne hne] at hk
      cases hk
  · rw [hs.threads_eq] at ht
    cases ht

omit [DecidableEq ι] in
theorem Initial.new {s : World ι η α} (hs : Initial s) (t : ι) : (s.threads t).new = none := by
  rw [hs.threads_eq]
  rfl

theorem distinct {tr : List (World ι η α × Event ι η α)} {s : World ι η α}
    (h : (machine ι η α).Run tr s) : Distinct s := by
  refine h.invariant ?_ fun s e s' hd hstep => hd.step hstep
  intro s hs
  refine ⟨?_, ?_, ?_⟩
  · intro x y hx hy _ _ _ _ _
    rw [hs.holds hx, hs.holds hy]
  · intro t a ha
    rw [hs.new t] at ha
    cases ha
  · intro t u a ha
    rw [hs.new t] at ha
    cases ha

/-! ### A swap that a check misses -/

/-- An empty slot with one handle. -/
def sampleWorld : World (Fin 2) ℕ ℕ where
  inner := ⟨0, none⟩
  mutex := none
  handles := Function.update (fun _ => .unborn) 0 (.live ⟨0, none⟩)
  threads := fun _ => .idle

theorem sampleWorld_initial : Initial sampleWorld := ⟨rfl, rfl, ⟨0, rfl⟩, rfl⟩

theorem sampleWorld_not_occupied (addr : ℕ) : ¬ sampleWorld.Occupied addr := by
  rintro (⟨x, hx, a, ha, -⟩ | ⟨t, a, ha, -⟩)
  · rw [sampleWorld_initial.holds hx] at ha
    cases ha
  · rw [sampleWorld_initial.new t] at ha
    cases ha

/-- The first thread has checked the slot when the second one swaps; it goes to sleep, is woken
up, reports the new value and goes to sleep again. -/
theorem sample_steps :
    ∃ tr s, (machine (Fin 2) ℕ ℕ).Steps sampleWorld tr s ∧ s.threads 0 = .blocked 0
      ∧ s.threads 1 = .idle ∧ s.inner = ⟨1, some ⟨7, 5⟩⟩
      ∧ tr.map Prod.snd = [.alloc 1, .go 0, .go 0, .load 0 0 ⟨0, none⟩, .swap 1 ⟨1, some ⟨7, 5⟩⟩,
        .same 0 0, .go 0, .go 1, .go 1, .go 1, .go 1, .go 0, .load 0 0 ⟨1, some ⟨7, 5⟩⟩,
        .report 0 0 ⟨1, some ⟨7, 5⟩⟩, .go 0, .go 0, .go 0, .load 0 0 ⟨1, some ⟨7, 5⟩⟩, .same 0 0,
        .go 0] := by
  have hfree : ∀ {s : World (Fin 2) ℕ ℕ} {h}, (s.threads 0).handle = none →
      (s.threads 1).handle = none → ¬ s.Borrowed h := by
    rintro s h h₀ h₁ ⟨t, ht⟩
    fin_cases t
    · cases h₀.symm.trans ht
    · cases h₁.symm.trans ht
  have h₁ := Machine.Steps.step (M := machine (Fin 2) ℕ ℕ) .refl
    (Step.alloc sampleWorld 1 7 5 rfl (sampleWorld_not_occupied 7))
  have h₂ := h₁.step (Step.waitForChange _ 0 0 ⟨0, none⟩ rfl rfl (hfree rfl rfl))
  have h₃ := h₂.step (Step.lock _ 0 0 rfl rfl)
  have h₄ := h₃.step (Step.load _ 0 0 true rfl)
  have h₅ := h₄.step (Step.swap _ 1 (some ⟨7, 5⟩) rfl)
  have h₆ := h₅.step (Step.unchanged _ 0 0 ⟨0, none⟩ ⟨0, none⟩ true rfl rfl rfl)
  have h₇ := h₆.step (Step.wait _ 0 0 rfl)
  have h₈ := h₇.step (Step.wakeLock _ 1 ⟨0, none⟩ rfl rfl)
  have h₉ := h₈.step (Step.notifyAll _ 1 ⟨0, none⟩ rfl)
  have h₁₀ := h₉.step (Step.wakeUnlock _ 1 ⟨0, none⟩ rfl)
  have h₁₁ := h₁₀.step (Step.dropOld _ 1 ⟨0, none⟩ rfl)
  have h₁₂ := h₁₁.step (Step.lock _ 0 0 rfl rfl)
  have h₁₃ := h₁₂.step (Step.load _ 0 0 true rfl)
  have h₁₄ := h₁₃.step (Step.changed _ 0 0 ⟨0, none⟩ ⟨1, some ⟨7, 5⟩⟩ true rfl rfl (by decide))
  have h₁₅ := h₁₄.step (Step.leave _ 0 0 rfl)
  have h₁₆ := h₁₅.step (Step.waitForChange _ 0 0 ⟨1, some ⟨7, 5⟩⟩ rfl rfl (hfree rfl rfl))
  have h₁₇ := h₁₆.step (Step.lock _ 0 0 rfl rfl)
  have h₁₈ := h₁₇.step (Step.load _ 0 0 true rfl)
  have h₁₉ := h₁₈.step (Step.unchanged _ 0 0 ⟨1, some ⟨7, 5⟩⟩ ⟨1, some ⟨7, 5⟩⟩ true rfl rfl rfl)
  have h₂₀ := h₁₉.step (Step.wait _ 0 0 rfl)
  exact ⟨_, _, h₂₀, rfl, rfl, rfl, rfl⟩

end Watch
