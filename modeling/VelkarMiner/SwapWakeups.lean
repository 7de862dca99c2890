/-
No wake-up of `wait_for_change` is lost (`src/swap_rust.rs`).

`swap` writes the slot without the mutex, but notifies with it; a thread checks the
slot and goes to sleep with the mutex.  So a swap that a check has missed still has
to notify, and it cannot do so before the thread is asleep.

* `Watched` — a thread that has missed a swap will be notified;
* `no_lost_wakeup` — a sleeping thread has cached what is in the slot.
-/
import VelkarMiner.SwapThreads

namespace Watch

variable {ι η α : Type}

/-- A call of `swap` is between its access to the slot and its `notify_all`. -/
def World.Waking (s : World ι η α) : Prop :=
  ∃ t old, s.threads t = .wake old ∨ s.threads t = .notify old

/-- The thread is asleep, or goes to sleep next. -/
def Pc.Waiting (h : η) (pc : Pc η α) : Prop := pc = .wait h ∨ pc = .blocked h

/-- The handle has cached what is in the slot. -/
def World.UpToDate (s : World ι η α) (h : η) : Prop :=
  ∃ cached, s.handles h = .live cached ∧ cached.Same s.inner

/-- A thread that has missed a swap will be notified. -/
structure Watched (s : World ι η α) : Prop where
  compare : ∀ t h guard, s.threads t = .compare h guard true → guard = s.inner ∨ s.Waking
  waiting : ∀ t h, (s.threads t).Waiting h → s.UpToDate h ∨ s.Waking

theorem Pc.Waiting.handle {h : η} {pc : Pc η α} (hw : pc.Waiting h) : pc.handle = some h := by
  obtain rfl | rfl := hw <;> rfl

theorem notified_ne_blocked (pc : Pc η α) (h : η) : pc.notified ≠ .blocked h := by
  cases pc <;> simp [Pc.notified]

/-- Handles that no thread works with change. -/
theorem Watched.handles {s s' : World ι η α} (hw : Watched s) (hthreads : s'.threads = s.threads)
    (hinner : s'.inner = s.inner)
    (hhandles : ∀ u h, (s.threads u).handle = some h → s'.handles h = s.handles h) :
    Watched s' := by
  have hwaking : s.Waking → s'.Waking := by
    rintro ⟨t, old, ht⟩
    exact ⟨t, old, by rwa [hthreads]⟩
  constructor
  · intro u h guard hu
    rw [hthreads] at hu
    rw [hinner]
    exact (hw.compare u h guard hu).imp_right hwaking
  · intro u h hu
    rw [hthreads] at hu
    refine (hw.waiting u h hu).imp ?_ hwaking
    rintro ⟨cached, hlive, hcached⟩
    exact ⟨cached, by rw [hhandles u h hu.handle, hlive], by rwa [hinner]⟩

variable [DecidableEq ι]

/-- A thread moves that is neither asleep nor in a call of `swap`. -/
theorem World.Waking.set {s s' : World ι η α} (hw : s.Waking) {t : ι} {pc : Pc η α}
    (hthreads : s'.threads = Function.update s.threads t pc)
    (hpc : ∀ old, s.threads t ≠ .wake old ∧ s.threads t ≠ .notify old) : s'.Waking := by
  obtain ⟨u, old, hu⟩ := hw
  have hne : u ≠ t := by
    rintro rfl
    exact hu.elim (hpc old).1 (hpc old).2
  refine ⟨u, old, ?_⟩
  rwa [hthreads, Function.update_of_ne hne]

/-- The other threads are where they were, and nothing they look at has changed. -/
theorem Watched.set {s s' : World ι η α} (hw : Watched s) {t : ι} {pc : Pc η α}
    (hthreads : s'.threads = Function.update s.threads t pc) (hinner : s'.inner = s.inner)
    (hhandles : ∀ u h, u ≠ t → (s.threads u).handle = some h → s'.handles h = s.handles h)
    (hwaking : s.Waking → s'.Waking)
    (hcompare : ∀ h guard, pc = .compare h guard true → guard = s.inner ∨ s.Waking)
    (hwaiting : ∀ h, pc.Waiting h → s.UpToDate h ∧ s'.handles h = s.handles h ∨ s.Waking) :
    Watched s' := by
  have hkeep : ∀ h, s'.handles h = s.handles h → s.UpToDate h → s'.UpToDate h := by
    rintro h hsame ⟨cached, hlive, hcached⟩
    exact ⟨cached, by rw [hsame, hlive], by rwa [hinner]⟩
  constructor
  · intro u h guard hu
    rw [hthreads] at hu
    rw [hinner]
    obtain rfl | hne := eq_or_ne u t
    · rw [Function.update_self] at hu
      exact (hcompare h guard hu).imp_right hwaking
    · rw [Function.update_of_ne hne] at hu
      exact (hw.compare u h guard hu).imp_right hwaking
  · intro u h hu
    rw [hthreads] at hu
    obtain rfl | hne := eq_or_ne u t
    · rw [Function.update_self] at hu
      exact (hwaiting h hu).imp (fun hdate => hkeep h hdate.2 hdate.1) hwaking
    · rw [Function.update_of_ne hne] at hu
      exact (hw.waiting u h hu).imp (hkeep h (hhandles u h hne hu.handle)) hwaking

variable [DecidableEq η]

theorem Watched.step {s s' : World ι η α} {e : Event ι η α} (hw : Watched s) (hex : Exclusive s)
    (hb : Borrow s) (hd : Distinct s) (h : Step s e s') : Watched s' := by
  cases h with
  | swap t new hpc =>
    have hwaking :
        World.Waking ({ s with inner := ⟨s.inner.index + 1, new⟩ }.set t (.wake s.inner)) :=
      ⟨t, s.inner, Or.inl (World.set_threads_self ..)⟩
    exact ⟨fun _ _ _ _ => Or.inr hwaking, fun _ _ _ => Or.inr hwaking⟩
  | notifyAll t old hpc =>
    -- the notifier holds the mutex: the others do not check, and none of them stays asleep
    have hmutex : s.mutex = some t := (hex t).mp (by rw [hpc]; trivial)
    have hout : ∀ u, u ≠ t → ¬ (s.threads u).Critical := by
      intro u hne hcrit
      exact hne (Option.some.inj (((hex u).mp hcrit).symm.trans hmutex))
    constructor
    · intro u h guard hu
      obtain rfl | hne := eq_or_ne u t
      · rw [World.set_threads_self] at hu
        cases hu
      · rw [World.set_threads_of_ne _ hne] at hu
        refine absurd ?_ (hout u hne)
        rw [← critical_notified, show (s.threads u).notified = _ from hu]
        rfl
    · intro u h hu
      obtain rfl | hne := eq_or_ne u t
      · rw [World.set_threads_self] at hu
        obtain hu | hu := hu <;> cases hu
      · rw [World.set_threads_of_ne _ hne] at hu
        obtain hu | hu := hu
        · refine absurd ?_ (hout u hne)
          rw [← critical_notified, show (s.threads u).notified = _ from hu]
          trivial
        · exact absurd hu (notified_ne_blocked _ h)
  | wakeLock t old hpc hfree =>
    refine hw.set (t := t) rfl rfl (fun _ _ _ _ => rfl) (fun _ => ?_) (by simp)
      (by simp [Pc.Waiting])
    exact ⟨t, old, Or.inr (World.set_threads_self ..)⟩
  | load t h waiting hpc =>
    refine hw.set (t := t) rfl rfl (fun _ _ _ _ => rfl) ?_ ?_ (by simp [Pc.Waiting])
    · exact fun hwaking => hwaking.set (t := t) rfl (by simp [hpc])
    · intro k guard heq
      obtain ⟨rfl, rfl, -⟩ : h = k ∧ s.inner = guard ∧ waiting = true := by simpa using heq
      exact Or.inl rfl
  | unchanged t h cached guard waiting hpc hlive hptr =>
    refine hw.set (t := t) rfl rfl (fun _ _ _ _ => rfl) ?_ ?_ ?_
    · exact fun hwaking => hwaking.set (t := t) rfl (by simp [hpc])
    · intro k guard' heq
      cases waiting <;> simp at heq
    · intro k hk
      cases waiting with
      | false => simp [Pc.Waiting] at hk
      | true =>
        obtain rfl : h = k := by simpa [Pc.Waiting] using hk
        obtain rfl | hwaking := hw.compare t h guard hpc
        · have hsame := hd.same (Or.inr (Or.inl ⟨h, hlive⟩)) (Or.inl rfl) hptr
          exact Or.inl ⟨⟨cached, hlive, hsame⟩, rfl⟩
        · exact Or.inr hwaking
  | wait t h hpc =>
    refine hw.set (t := t) rfl rfl (fun _ _ _ _ => rfl) ?_ (by simp) ?_
    · exact fun hwaking => hwaking.set (t := t) rfl (by simp [hpc])
    · intro k hk
      obtain rfl : h = k := by simpa [Pc.Waiting] using hk
      exact (hw.waiting t h (Or.inl hpc)).imp_left fun hdate => ⟨hdate, rfl⟩
  | changed t h cached guard waiting hpc hlive hptr =>
    refine hw.set (t := t) rfl rfl ?_ ?_ ?_ ?_
    · intro u k hne hu
      refine Function.update_of_ne ?_ ..
      rintro rfl
      exact hne (hb.unique u t k hu (by rw [hpc]; rfl))
    · exact fun hwaking => hwaking.set (t := t) rfl (by simp [hpc])
    · intro k guard' heq
      cases waiting <;> simp at heq
    · intro k hk
      cases waiting <;> simp [Pc.Waiting] at hk
  | clone h h' cached hlive hfree hnew =>
    refine hw.handles rfl rfl fun u k hu => Function.update_of_ne ?_ ..
    rintro rfl
    obtain ⟨c, hc⟩ := hb.live u k hu
    rw [hnew] at hc
    cases hc
  | drop h cached hlive hfree =>
    refine hw.handles rfl rfl fun u k hu => Function.update_of_ne ?_ ..
    rintro rfl
    exact hfree ⟨u, hu⟩
  | alloc t _ _ hpc | allocNone t hpc | wakeUnlock t _ hpc | dropOld t _ hpc | getChanged t _ _ hpc
  | waitForChange t _ _ hpc | lock t _ hpc | leave t _ hpc | spurious t _ hpc =>
    refine hw.set (t := t) rfl rfl (fun _ _ _ _ => rfl) ?_ (by simp) (by simp [Pc.Waiting])
    exact fun hwaking => hwaking.set (t := t) rfl (by simp [hpc])

theorem watched {tr : List (World ι η α × Event ι η α)} {s : World ι η α}
    (h : (machine ι η α).Run tr s) : Watched s := by
  refine Machine.Run.induction (P := fun _ s => Watched s) ?_ ?_ h
  · intro s hs
    constructor
    · intro t h guard ht
      rw [hs.threads_eq] at ht
      cases ht
    · intro t h ht
      rw [hs.threads_eq] at ht
      obtain ht | ht := ht <;> cases ht
  · intro tr s e s' hrun hw hstep
    exact hw.step (exclusive hrun) (borrow hrun) (distinct hrun) hstep

/-- While no call of `swap` is between its access to the slot and its `notify_all`, a thread that
is asleep in `wait_for_change` has cached what is in the slot. -/
theorem no_lost_wakeup (tr : List (World ι η α × Event ι η α)) (s : World ι η α)
    (hrun : (machine ι η α).Run tr s) (t : ι) (h : η) (hblocked : s.threads t = .blocked h)
    (hquiet : ∀ u old, s.threads u ≠ .wake old ∧ s.threads u ≠ .notify old) :
    ∃ cached, s.handles h = .live cached
      ∧ (cached = s.inner ∨ cached.arc = none ∧ s.inner.arc = none) := by
  refine ((watched hrun).waiting t h (Or.inr hblocked)).resolve_right ?_
  rintro ⟨u, old, hu⟩
  exact hu.elim (hquiet u old).1 (hquiet u old).2

theorem sleeper_has_seen_swap :
    ∃ (s : World (Fin 2) ℕ ℕ) (cached : Stored ℕ), s.handles 0 = .live cached
      ∧ s.inner = ⟨1, some ⟨7, 5⟩⟩
        ∧ (cached = s.inner ∨ cached.arc = none ∧ s.inner.arc = none) := by
  obtain ⟨tr, s, hsteps, hblocked, hidle, hinner, -⟩ := sample_steps
  have hquiet : ∀ u old, s.threads u ≠ .wake old ∧ s.threads u ≠ .notify old :=
    Fin.forall_fin_two.mpr ⟨by simp [hblocked], by simp [hidle]⟩
  obtain ⟨cached, hlive, hcached⟩ :=
    no_lost_wakeup tr s ⟨_, sampleWorld_initial, hsteps⟩ 0 0 hblocked hquiet
  exact ⟨s, cached, hlive, hinner, hcached⟩

end Watch
