/-
The schedule of the development fund's batches (`GpuStratumDevfundManager::launch` of
`src/miner.rs`).

Whatever the pools deliver and when, batch number `i` is for the development fund
exactly when `i % 100 = 99` and a job of the fund is held.  Before each batch the
scheduler looks at both slots, and it works on the job that was delivered last then.

* `Seen` — what the scheduler holds is what it has seen in the slots;
* `Looked` — both slots have been looked at since the batch before;
* `Scheduled` — where the scheduler is in its loop decides the pool of its next batch;
* `gpu_schedule` — the schedule of a run, and the cells of the limiters.
-/
import VelkarMiner.Shares
import Mathlib.Data.List.NodupEquivFin

namespace Devfund

/-! ### The jobs that are held -/

/-- The content of the slot of a pool at the last look at it. -/
def lastSeen (pool : Pool) (tr : List (Scheduler × Event)) : Option (Instance State) :=
  tr.foldl (fun seen x => match x.2 with
    | .read pool' => if pool' = pool then (x.1.slots pool).inner else seen
    | _ => seen) none

/-- The same job, whatever nonces have been written into it. -/
def SameJob (x y : Option (Instance State)) : Prop :=
  x.map (·.withNonce 0) = y.map (·.withNonce 0)

theorem SameJob.isSome_iff {x y : Option (Instance State)} (h : SameJob x y) :
    x.isSome = y.isSome := by
  have := congrArg Option.isSome h
  rwa [Option.isSome_map, Option.isSome_map] at this

/-- The pool's slot, the cached instance and the held job after the looks of a run. -/
structure Seen (tr : List (Scheduler × Event)) (s : Scheduler) (pool : Pool) : Prop where
  cached_eq : s.cached pool = lastSeen pool tr
  numbered : (s.slots pool).Numbered (s.slots pool).inner
  cached_numbered : (s.slots pool).Numbered (s.cached pool)
  eq_of_stamp : ∀ i ∈ (s.slots pool).inner, ∀ j ∈ s.cached pool, i.stamp = j.stamp → i = j
  inner_isSome : (s.cached pool).isSome → (s.slots pool).inner.isSome
  sameJob : SameJob (s.states pool) (s.cached pool)

variable {cfg : Config} {tr : List (Scheduler × Event)} {s s' : Scheduler} {e : Event} {pool : Pool}

theorem lastSeen_concat :
    lastSeen pool (tr ++ [(s, e)]) = match e with
      | .read pool' => if pool' = pool then (s.slots pool).inner else lastSeen pool tr
      | _ => lastSeen pool tr := by
  simp [lastSeen]

/-- Equal pointers are equal instances. -/
theorem Seen.inner_eq (h : Seen tr s pool) (hsame : ¬ (s.slots pool).Changed (s.cached pool)) :
    (s.slots pool).inner = s.cached pool := by
  have hptr : Slot.ptr (s.slots pool).inner = Slot.ptr (s.cached pool) := not_not.mp hsame
  cases hinner : (s.slots pool).inner with
  | none =>
    rw [hinner] at hptr
    exact (Option.map_eq_none_iff.mp hptr.symm).symm
  | some i =>
    rw [hinner] at hptr
    obtain ⟨j, hj, hstamp⟩ := Option.map_eq_some_iff.mp hptr.symm
    rw [hj, h.eq_of_stamp i hinner j hj hstamp.symm]

/-- After a look the handle has cached what is in the slot. -/
theorem Seen.getChanged_eq (h : Seen tr s pool) :
    (s.slots pool).getChanged (s.cached pool) = (s.slots pool).inner := by
  rw [Slot.getChanged]
  split
  case isTrue => rfl
  case isFalse hsame => exact (h.inner_eq hsame).symm

/-- What a step does to a pool's slot, cached instance and held job. -/
theorem pool_cases (h : Step cfg s e s') (pool : Pool) :
    (∃ state, e = .job pool state ∧ s'.slots pool = (s.slots pool).swap (some state)
        ∧ s'.cached pool = s.cached pool ∧ s'.states pool = s.states pool)
      ∨ e = .read pool ∧ s'.slots pool = s.slots pool
        ∧ (s'.cached pool = (s.slots pool).inner ∧ s'.states pool = (s.slots pool).inner
          ∨ s'.cached pool = (s.slots pool).getChanged (s.cached pool)
            ∧ s'.states pool = if (s.slots pool).Changed (s.cached pool) then
                (s.slots pool).inner else s.states pool)
      ∨ e ≠ .read pool ∧ s'.slots pool = s.slots pool ∧ s'.cached pool = s.cached pool
        ∧ (s'.states pool = s.states pool
          ∨ ∃ i nonce, s.states pool = some i ∧ s'.states pool = some (i.withNonce nonce)) := by
  cases h with
  | job pool' job state hstate =>
    by_cases hpool : pool = pool'
    · subst hpool
      exact Or.inl ⟨state, rfl, Function.update_self .., rfl, rfl⟩
    · exact Or.inr (Or.inr ⟨nofun, Function.update_of_ne hpool .., rfl, Or.inl rfl⟩)
  | wait hpc hnone hchanged =>
    by_cases hpool : pool = .main
    · subst hpool
      exact Or.inr (Or.inl ⟨rfl, rfl, Or.inl (by simp)⟩)
    · refine Or.inr (Or.inr ⟨fun he => hpool (Event.read.inj he).symm, rfl,
        Function.update_of_ne hpool .., Or.inl (Function.update_of_ne hpool ..)⟩)
  | poll pool' hpc =>
    by_cases hpool : pool = pool'
    · subst hpool
      exact Or.inr (Or.inl ⟨rfl, rfl, Or.inr ⟨Function.update_self .., Function.update_self ..⟩⟩)
    · refine Or.inr (Or.inr ⟨fun he => hpool (Event.read.inj he).symm, rfl,
        Function.update_of_ne hpool .., Or.inl (Function.update_of_ne hpool ..)⟩)
  | hitRejected pool' i hit rest hpc hstate | hitEarly pool' i hit rest pow now hpc hstate
  | hitSubmit pool' i hit rest pow now jobId hpc hstate
  | hitFailed pool' i hit rest pow now hpc hstate =>
    by_cases hpool : pool = pool'
    · subst hpool
      exact Or.inr (Or.inr ⟨nofun, rfl, rfl, Or.inr ⟨i, hit.nonce, hstate,
        Function.update_self ..⟩⟩)
    · exact Or.inr (Or.inr ⟨nofun, rfl, rfl, Or.inl (Function.update_of_ne hpool ..)⟩)
  | _ => exact Or.inr (Or.inr ⟨nofun, rfl, rfl, Or.inl rfl⟩)

theorem sameJob_withNonce {i : Instance State} {x : Option (Instance State)}
    (h : SameJob (some i) x) (nonce : U64) : SameJob (some (i.withNonce nonce)) x := h

theorem seen_step (hstep : Step cfg s e s') (h : Seen tr s pool) :
    Seen (tr ++ [(s, e)]) s' pool := by
  obtain ⟨state, rfl, hslot, hcached, hstates⟩ | ⟨rfl, hslot, hlook⟩
    | ⟨hread, hslot, hcached, hstates⟩ := pool_cases hstep pool
  -- a job swaps a new state into this pool
  · refine ⟨?_, ?_, ?_, ?_, ?_, ?_⟩
    · rw [hcached, lastSeen_concat, h.cached_eq]
    · rw [hslot]
      exact Slot.numbered_swap _ _
    · rw [hslot, hcached]
      exact h.cached_numbered.swap _
    · -- a new instance has a number of its own
      intro i hi j hj hstamp
      rw [hslot] at hi
      rw [hcached] at hj
      obtain rfl : _ = i := Option.some.inj hi
      have hlt := h.cached_numbered j hj
      simp only at hstamp
      omega
    · rw [hslot]
      exact fun _ => rfl
    · rw [hstates, hcached]
      exact h.sameJob
  -- the scheduler looks at this pool
  · have hseen : s'.cached pool = (s.slots pool).inner := by
      obtain ⟨hcached, -⟩ | ⟨hcached, -⟩ := hlook
      · exact hcached
      · rw [hcached, h.getChanged_eq]
    refine ⟨?_, ?_, ?_, ?_, ?_, ?_⟩
    · rw [hseen, lastSeen_concat]
      exact (if_pos rfl).symm
    · rw [hslot]
      exact h.numbered
    · rw [hslot, hseen]
      exact h.numbered
    · intro i hi j hj _
      rw [hslot] at hi
      rw [hseen] at hj
      exact Option.some.inj (hi.symm.trans hj)
    · rw [hslot, hseen]
      exact id
    · obtain ⟨-, hstates⟩ | ⟨-, hstates⟩ := hlook
      · rw [hstates, hseen, SameJob]
      · rw [hstates, hseen]
        split
        case isTrue => rfl
        case isFalse hsame =>
          rw [h.inner_eq hsame]
          exact h.sameJob
  -- any other step
  · refine ⟨?_, ?_, ?_, ?_, ?_, ?_⟩
    · rw [hcached, lastSeen_concat, h.cached_eq]
      cases e with
      | read pool' => exact (if_neg fun hpool => hread (congrArg _ hpool)).symm
      | _ => rfl
    · rw [hslot]
      exact h.numbered
    · rw [hslot, hcached]
      exact h.cached_numbered
    · rw [hslot, hcached]
      exact h.eq_of_stamp
    · rw [hslot, hcached]
      exact h.inner_isSome
    · rw [hcached]
      obtain hsame | ⟨i, nonce, hi, hi'⟩ := hstates
      · rw [hsame]
        exact h.sameJob
      · rw [hi']
        exact sameJob_withNonce (hi ▸ h.sameJob) nonce

theorem seen (h : (machine cfg).Run tr s) (pool : Pool) : Seen tr s pool := by
  refine Machine.Run.induction (P := fun tr s => Seen tr s pool) ?_ ?_ h
  · intro s hs
    have hslot : s.slots pool = Slot.empty := congrFun hs.slots_eq pool
    have hcached : s.cached pool = none := congrFun hs.cached_eq pool
    have hstates : s.states pool = none := congrFun hs.states_eq pool
    refine ⟨hcached, ?_, ?_, ?_, ?_, ?_⟩
    · rw [hslot]
      exact Slot.numbered_none _
    · rw [hcached]
      exact Slot.numbered_none _
    · rw [hcached]
      exact fun _ _ _ => nofun
    · rw [hcached]
      exact nofun
    · rw [hstates, hcached, SameJob]
  · intro tr s e s' _ ih hstep
    exact seen_step hstep ih

/-! ### The looks -/

/-- The job that a step delivers for a pool. -/
def jobOf (pool : Pool) : Event → Option State
  | .job pool' state => if pool' = pool then some state else none
  | _ => none

/-- A slot holds the job that was delivered last. -/
theorem slot_eq_latest (h : (machine cfg).Run tr s) (pool : Pool) :
    (s.slots pool).inner.map Instance.value = Machine.latest (jobOf pool) tr := by
  refine Machine.Run.induction
    (P := fun tr s => (s.slots pool).inner.map Instance.value = Machine.latest (jobOf pool) tr)
    ?_ ?_ h
  · intro s hs
    rw [congrFun hs.slots_eq pool]
    rfl
  · intro tr s e s' _ ih hstep
    rw [Machine.latest_concat]
    cases hstep with
    | job pool' job state hstate =>
      by_cases hpool : pool' = pool
      · subst hpool
        simp [jobOf, Slot.swap]
      · simpa [jobOf, hpool, Function.update_of_ne (Ne.symm hpool)] using ih
    | _ => simpa [jobOf] using ih

/-- The last look at the slot of a pool, with no batch after it. -/
def LastLook (pool : Pool) (tr before : List (Scheduler × Event)) (s₁ : Scheduler) : Prop :=
  ∃ after, tr = before ++ (s₁, .read pool) :: after
    ∧ ∀ x ∈ after, x.2 ≠ .read pool ∧ batchOf x.2 = none

theorem LastLook.concat {before : List (Scheduler × Event)} {s₁ : Scheduler}
    (h : LastLook pool tr before s₁) (hread : e ≠ .read pool) (hbatch : batchOf e = none) :
    LastLook pool (tr ++ [(s, e)]) before s₁ := by
  obtain ⟨after, rfl, hafter⟩ := h
  exact ⟨after ++ [(s, e)], Machine.quiet_concat (y := (s, e)) hafter ⟨hread, hbatch⟩⟩

theorem lastLook_concat : LastLook pool (tr ++ [(s, .read pool)]) tr s :=
  ⟨[], rfl, by simp⟩

theorem LastLook.lastSeen_eq {before : List (Scheduler × Event)} {s₁ : Scheduler}
    (h : LastLook pool tr before s₁) : lastSeen pool tr = (s₁.slots pool).inner := by
  obtain ⟨after, rfl, hafter⟩ := h
  induction after using List.reverseRecOn with
  | nil => simp [lastSeen_concat]
  | append_singleton after x ih =>
    have hlater := ih fun y hy => hafter y (by simp [hy])
    rw [← List.cons_append, ← List.append_assoc, ← hlater]
    obtain ⟨hread, -⟩ := hafter x (by simp)
    obtain ⟨s, e⟩ := x
    rw [lastSeen_concat]
    cases e with
    | read pool' => exact if_neg fun hpool => hread (congrArg _ hpool)
    | _ => rfl

/-- The slots that have been looked at since the last batch, by the scheduler's place. -/
def Looked (tr : List (Scheduler × Event)) (s : Scheduler) : Prop :=
  match s.pc with
  | .poll .dev => ∃ before s₁, LastLook .main tr before s₁
  | .choose | .work _ => ∀ pool, ∃ before s₁, LastLook pool tr before s₁
  | _ => True

theorem Looked.concat (h : Looked tr s) (hpc : s'.pc = s.pc) (hread : ∀ pool, e ≠ .read pool)
    (hbatch : batchOf e = none) : Looked (tr ++ [(s, e)]) s' := by
  rw [Looked] at h ⊢
  rw [hpc]
  split at h
  case h_1 =>
    obtain ⟨before, s₁, hlook⟩ := h
    exact ⟨before, s₁, hlook.concat (hread .main) hbatch⟩
  case h_2 | h_3 =>
    intro pool
    obtain ⟨before, s₁, hlook⟩ := h pool
    exact ⟨before, s₁, hlook.concat (hread pool) hbatch⟩
  case h_4 => exact trivial

theorem looked_step (hstep : Step cfg s e s') (h : Looked tr s) :
    Looked (tr ++ [(s, e)]) s' := by
  cases hstep with
  | job | close => exact h.concat rfl (fun _ => nofun) rfl
  | poll pool' hpc =>
    rw [Looked, hpc] at h
    cases pool' with
    | main => exact ⟨tr, s, lastLook_concat⟩
    | dev =>
      -- the other slot has been looked at just before
      obtain ⟨before, s₁, hlook⟩ := h
      rintro (_ | _)
      · exact ⟨before, s₁, hlook.concat nofun rfl⟩
      · exact ⟨tr, s, lastLook_concat⟩
  | chooseDev hpc | chooseMain i hpc =>
    simp only [Looked, hpc] at h
    intro pool
    obtain ⟨before, s₁, hlook⟩ := h pool
    exact ⟨before, s₁, hlook.concat nofun rfl⟩
  | _ => trivial

theorem looked (h : (machine cfg).Run tr s) : Looked tr s := by
  refine Machine.Run.induction (P := Looked) ?_ ?_ h
  · intro s hs
    rw [Looked, hs.pc_eq]
    trivial
  · intro tr s e s' _ ih hstep
    exact looked_step hstep ih

/-- What is held after the last look is the job that was delivered last before it. -/
theorem LastLook.held {before : List (Scheduler × Event)} {s₁ : Scheduler}
    (h : LastLook pool tr before s₁) (hrun : (machine cfg).Run tr s) :
    SameJob (s.states pool) (s₁.slots pool).inner
      ∧ (s₁.slots pool).inner.map Instance.value = Machine.latest (jobOf pool) before := by
  have hseen := seen hrun pool
  refine ⟨?_, ?_⟩
  · rw [← h.lastSeen_eq, ← hseen.cached_eq]
    exact hseen.sameJob
  · obtain ⟨after, rfl, -⟩ := h
    exact slot_eq_latest hrun.split.1 pool

/-! ### The batches -/

/-- The pools of the batches of a run. -/
def batchPools (tr : List (Scheduler × Event)) : List Pool :=
  tr.filterMap fun x => (batchOf x.2).map Prod.fst

theorem batchPools_concat :
    batchPools (tr ++ [(s, e)]) = batchPools tr ++ ((batchOf e).map Prod.fst).toList := by
  rw [batchPools, List.filterMap_append]
  cases h : batchOf e <;> simp [batchPools, h]

/-- What the scheduler's place in its loop says about its next batch: the index counts the batches
that are over, and a job of the user's pool is held from the first look on. -/
def Scheduled (n : ℕ) (s : Scheduler) : Prop :=
  match s.pc with
  | .top => s.batchIndex = BitVec.ofNat 64 n
  | .poll _ | .choose => s.batchIndex = BitVec.ofNat 64 n ∧ (s.states .main).isSome
  | .work pool =>
    s.batchIndex = BitVec.ofNat 64 n ∧ (s.states .main).isSome ∧ (pool = .dev ↔ s.UseDevfund)
  | .hits _ _ => s.batchIndex + 1 = BitVec.ofNat 64 n ∧ (s.states .main).isSome
  | .stopped => True

/-- A job of the user's pool stays until the next one is seen. -/
theorem held_step (hseen : Seen tr s pool) (hstep : Step cfg s e s')
    (h : (s.states pool).isSome) : (s'.states pool).isSome := by
  have hinner : (s.slots pool).inner.isSome :=
    hseen.inner_isSome (hseen.sameJob.isSome_iff ▸ h)
  obtain ⟨-, -, -, -, hstates⟩ | ⟨-, -, ⟨-, hstates⟩ | ⟨-, hstates⟩⟩
    | ⟨-, -, -, hstates | ⟨i, nonce, -, hstates⟩⟩ := pool_cases hstep pool
  · rwa [hstates]
  · rwa [hstates]
  · rw [hstates]
    split
    · exact hinner
    · exact h
  · rwa [hstates]
  · rw [hstates]
    rfl

theorem scheduled_step (hseen : Seen tr s .main) (hstep : Step cfg s e s')
    (h : Scheduled (batchPools tr).length s) :
    Scheduled (batchPools (tr ++ [(s, e)])).length s' := by
  rw [batchPools_concat]
  have hheld := held_step hseen hstep
  cases hstep with
  | job pool job state | close pool =>
    rw [Scheduled] at h ⊢
    simpa [batchOf, Scheduler.UseDevfund] using h
  | wait hpc hnone hchanged =>
    rw [Scheduled, hpc] at h
    refine ⟨by simpa [batchOf] using h, ?_⟩
    -- the slot has changed from nothing, and so it holds a job
    have hcached : s.cached .main = none := by
      have := hseen.sameJob.isSome_iff
      rw [hnone] at this
      exact Option.isSome_eq_false_iff.mp this.symm |> Option.isNone_iff_eq_none.mp
    simp only [Function.update_self]
    rw [Option.isSome_iff_ne_none]
    intro hinner
    rw [Slot.Changed, hinner, hcached] at hchanged
    exact hchanged rfl
  | begin i hpc hstate =>
    rw [Scheduled, hpc] at h
    exact ⟨by simpa [batchOf] using h, by simp [hstate]⟩
  | poll pool hpc =>
    rw [Scheduled, hpc] at h
    have : s.batchIndex = BitVec.ofNat 64 (batchPools tr ++ []).length := by simpa using h.1
    cases pool with
    | main => exact ⟨this, hheld h.2⟩
    | dev => exact ⟨this, hheld h.2⟩
  | chooseDev hpc huse =>
    rw [Scheduled, hpc] at h
    exact ⟨by simpa [batchOf] using h.1, h.2, iff_of_true rfl huse⟩
  | chooseMain i hpc huse hstate =>
    rw [Scheduled, hpc] at h
    exact ⟨by simpa [batchOf] using h.1, h.2, iff_of_false nofun huse⟩
  | chooseNone hpc huse hnone =>
    rw [Scheduled, hpc, hnone] at h
    simp at h
  | batch pool i hits hpc hstate =>
    rw [Scheduled, hpc] at h
    refine ⟨?_, h.2.1⟩
    simp only
    rw [h.1]
    simp [batchOf, BitVec.ofNat_add]
  | hitRejected pool i hit rest hpc | hitEarly pool i hit rest pow now hpc
  | hitSubmit pool i hit rest pow now jobId hpc =>
    rw [Scheduled, hpc] at h
    exact ⟨by simpa [batchOf] using h.1, hheld h.2⟩
  | done pool hpc =>
    rw [Scheduled, hpc] at h
    rw [Scheduled]
    simpa [batchOf] using h.1
  | searchFailed | hitFailed | shutdown => trivial

theorem scheduled (h : (machine cfg).Run tr s) : Scheduled (batchPools tr).length s := by
  refine Machine.Run.induction (P := fun tr s => Scheduled (batchPools tr).length s) ?_ ?_ h
  · intro s hs
    rw [Scheduled, hs.pc_eq]
    exact hs.batchIndex_eq
  · intro tr s e s' hrun ih hstep
    exact scheduled_step (seen hrun .main) hstep ih

/-- The index of a batch is the number of batches before it. -/
theorem batchIndex_eq {i : Instance State} {hits : List GpuHit} (h : (machine cfg).Run tr s)
    (hfew : (batchPools tr).length < 2 ^ 64) (hstep : Step cfg s (.batch pool i hits) s') :
    s.batchIndex.toNat = (batchPools tr).length := by
  have hsched := scheduled h
  cases hstep with
  | batch pool i hits hpc hstate =>
    rw [Scheduled, hpc] at hsched
    rw [hsched.1, BitVec.toNat_ofNat, Nat.mod_eq_of_lt hfew]

theorem useDevfund_iff :
    s.UseDevfund ↔ s.batchIndex.toNat % 100 = 99 ∧ (s.states .dev).isSome := by
  rw [Scheduler.UseDevfund, ← BitVec.toNat_inj, BitVec.toNat_umod]
  rfl

theorem batch_pool_iff {i : Instance State} {hits : List GpuHit} (h : (machine cfg).Run tr s)
    (hfew : (batchPools tr).length < 2 ^ 64) (hstep : Step cfg s (.batch pool i hits) s') :
    pool = .dev ↔ (batchPools tr).length % 100 = 99 ∧ (s.states .dev).isSome := by
  have hindex := batchIndex_eq h hfew hstep
  have hsched := scheduled h
  cases hstep with
  | batch pool i hits hpc hstate =>
    rw [Scheduled, hpc] at hsched
    rw [hsched.2.2, useDevfund_iff, hindex]

/-! ### Windows -/

/-- Marks that are 100 apart meet a window of 100 at most once. -/
theorem count_le_one {α : Type} [DecidableEq α] {a : α} {xs pre window post : List α}
    (hxs : ∀ k, xs[k]? = some a → k % 100 = 99) (hsplit : xs = pre ++ window ++ post)
    (hlength : window.length = 100) : window.count a ≤ 1 := by
  by_contra htwice
  have hsub : (List.replicate 2 a).Sublist window := List.replicate_sublist_iff.mpr (by omega)
  obtain ⟨f, hf⟩ := List.sublist_iff_exists_fin_orderEmbedding_get_eq.mp hsub
  have hmark : ∀ k : Fin (List.replicate 2 a).length, (pre.length + (f k).val) % 100 = 99 := by
    intro k
    apply hxs
    rw [hsplit, List.append_assoc, List.getElem?_append_right (Nat.le_add_right _ _),
      Nat.add_sub_cancel_left, List.getElem?_append_left (f k).isLt,
      List.getElem?_eq_getElem (f k).isLt]
    have := hf k
    simp only [List.get_eq_getElem, List.getElem_replicate] at this
    rw [← this]
  have hlt : f ⟨0, by simp⟩ < f ⟨1, by simp⟩ := f.strictMono (by simp)
  have h₀ := hmark ⟨0, by simp⟩
  have h₁ := hmark ⟨1, by simp⟩
  have hb := (f ⟨1, by simp⟩).isLt
  rw [Fin.lt_def] at hlt
  omega

/-- Entry `k` of the list of pools is the pool of batch `k`. -/
theorem split_of_getElem? {k : ℕ} (h : (batchPools tr)[k]? = some pool) :
    ∃ pre s₀ i hits post, tr = pre ++ (s₀, .batch pool i hits) :: post
      ∧ (batchPools pre).length = k := by
  induction tr using List.reverseRecOn with
  | nil => simp [batchPools] at h
  | append_singleton tr x ih =>
    obtain ⟨s, e⟩ := x
    rw [batchPools_concat] at h
    obtain hlt | hge := lt_or_ge k (batchPools tr).length
    · rw [List.getElem?_append_left hlt] at h
      obtain ⟨pre, s₀, i, hits, post, rfl, hk⟩ := ih h
      exact ⟨pre, s₀, i, hits, post ++ [(s, e)], by simp, hk⟩
    · rw [List.getElem?_append_right hge] at h
      cases e with
      | batch pool' i hits =>
        have hk : k - (batchPools tr).length = 0 := by
          have := (List.getElem?_eq_some_iff.mp h).1
          simp [batchOf] at this
          omega
        rw [hk] at h
        obtain rfl : pool' = pool := by simpa [batchOf] using h
        exact ⟨tr, s, i, hits, [], by simp, by omega⟩
      | _ => simp [batchOf] at h

theorem batchPools_le {pre post : List (Scheduler × Event)} (h : tr = pre ++ post) :
    (batchPools pre).length ≤ (batchPools tr).length := by
  rw [h, batchPools, batchPools, List.filterMap_append, List.length_append]
  exact Nat.le_add_right _ _

theorem dev_index {k : ℕ} (h : (machine cfg).Run tr s) (hfew : (batchPools tr).length < 2 ^ 64)
    (hk : (batchPools tr)[k]? = some .dev) : k % 100 = 99 := by
  obtain ⟨pre, s₀, i, hits, post, rfl, rfl⟩ := split_of_getElem? hk
  obtain ⟨hpre, s₁, hstep, -⟩ := h.split
  exact ((batch_pool_iff hpre ((batchPools_le rfl).trans_lt hfew) hstep).mp rfl).1

/-! ### The limiters -/

/-- The cell of a pool changes at a hit of that pool's batch only. -/
theorem lastSubmit_step (h : (machine cfg).Run tr s) (hstep : Step cfg s e s')
    (hne : s'.lastSubmit pool ≠ s.lastSubmit pool) :
    ∃ i hits, Machine.latest batchOf tr = some (pool, i, hits) := by
  have hat : ∃ rest, s.pc = .hits pool rest := by
    cases hstep with
    | hitSubmit pool' i hit rest pow now jobId hpc | hitFailed pool' i hit rest pow now hpc =>
      by_cases hpool : pool = pool'
      · subst hpool
        exact ⟨_, hpc⟩
      · exact absurd (Function.update_of_ne hpool ..) hne
    | _ => exact absurd rfl hne
  obtain ⟨rest, hpc⟩ := hat
  have hon := onLatest h
  rw [OnLatest] at hon
  split at hon
  case h_1 pool' i hits hlatest =>
    rw [OnBatch, hpc] at hon
    obtain ⟨rfl, -⟩ := hon
    exact ⟨i, hits, hlatest⟩
  case h_2 =>
    -- no batch yet, and so no hit
    obtain ⟨i, hi⟩ : ∃ i, i ∈ s.states .main := by
      have hsched := scheduled h
      rw [Scheduled, hpc] at hsched
      exact Option.isSome_iff_exists.mp hsched.2
    have := hon (if pool = .main then .dev else .main) i []
    rw [OnBatch, hpc] at this
    cases pool <;> simp at this

/-- A share enters the cell of its own pool and no other. -/
theorem submit_step {jobId nonce : Rust.Str} (hstep : Step cfg s (.submit pool jobId nonce) s')
    {pool' : Pool} (hne : pool' ≠ pool) : s'.lastSubmit pool' = s.lastSubmit pool' := by
  cases hstep with
  | hitSubmit => exact Function.update_of_ne hne ..

/-- Along every run of fewer than 2^64 batches: the index counts the batches; batch number `i` is
on the job of the development fund exactly when `i % 100 = 99` and such a job is held, and on the
job of the user's pool otherwise; both slots have been looked at since the batch before, and what is
held for a pool is the job delivered last before that look, but for its nonce; a job of the user's
pool has come before; the fund has at most one of any 100 batches in a row; and a limiter's cell
changes only at hits of its own pool's batch, and at shares of its own pool. -/
theorem gpu_schedule (cfg : Config) {tr : List (Scheduler × Event)} {s : Scheduler}
    (h : (machine cfg).Run tr s) (hfew : (batchPools tr).length < 2 ^ 64) :
    (∀ pre s₀ pool i hits post, tr = pre ++ (s₀, .batch pool i hits) :: post →
      s₀.batchIndex.toNat = (batchPools pre).length
        ∧ (pool = .dev ↔ (batchPools pre).length % 100 = 99 ∧ (s₀.states .dev).isSome)
        ∧ s₀.states pool = some i
        ∧ (∀ pool', ∃ before s₁, LastLook pool' pre before s₁
          ∧ SameJob (s₀.states pool') (s₁.slots pool').inner
          ∧ (s₁.slots pool').inner.map Instance.value = Machine.latest (jobOf pool') before)
        ∧ ∃ s₁ state, (s₁, Event.job .main state) ∈ pre)
    ∧ (∀ pre window post, batchPools tr = pre ++ window ++ post → window.length = 100 →
      window.count .dev ≤ 1)
    ∧ (∀ e s' pool, Step cfg s e s' → s'.lastSubmit pool ≠ s.lastSubmit pool →
      ∃ i hits, Machine.latest batchOf tr = some (pool, i, hits))
    ∧ ∀ s' pool jobId nonce, Step cfg s (.submit pool jobId nonce) s' →
      ∀ pool' ≠ pool, s'.lastSubmit pool' = s.lastSubmit pool' := by
  refine ⟨?_, ?_, ?_, ?_⟩
  · rintro pre s₀ pool i hits post rfl
    obtain ⟨hpre, s₁, hstep, -⟩ := h.split
    have hless : (batchPools pre).length < 2 ^ 64 := (batchPools_le rfl).trans_lt hfew
    refine ⟨batchIndex_eq hpre hless hstep, batch_pool_iff hpre hless hstep, ?_⟩
    have hsched := scheduled hpre
    have hlooked := looked hpre
    cases hstep with
    | batch pool i hits hpc hstate =>
      rw [Scheduled, hpc] at hsched
      rw [Looked, hpc] at hlooked
      obtain ⟨j, hj⟩ := Option.isSome_iff_exists.mp hsched.2.1
      obtain ⟨s₂, state, -, hmem, -⟩ := (allDelivered hpre).held .main j hj
      refine ⟨hstate, fun pool' => ?_, s₂, state, hmem⟩
      obtain ⟨before, s₁, hlook⟩ := hlooked pool'
      exact ⟨before, s₁, hlook, hlook.held hpre⟩
  · intro pre window post hsplit hlength
    exact count_le_one (fun k hk => dev_index h hfew hk) hsplit hlength
  · intro e s' pool hstep hne
    exact lastSubmit_step h hstep hne
  · intro s' pool jobId nonce hstep pool' hne
    exact submit_step hstep hne

/-- A run with one batch. -/
theorem one_batch_run :
    ∃ tr s, (machine sampleConfig).Run tr s ∧ batchPools tr = [.main] := by
  have h₁ := Machine.Steps.step (M := machine sampleConfig) .refl
    (Step.job sampleScheduler .main sampleStratumJob _ sampleStratumJob_mem)
  have h₂ := h₁.step (Step.wait _ rfl rfl (by decide))
  have h₃ := h₂.step (Step.poll _ .main rfl)
  have h₄ := h₃.step (Step.poll _ .dev rfl)
  have h₅ := h₄.step (Step.chooseMain _ _ rfl (by rintro ⟨h, -⟩; exact absurd h (by decide)) rfl)
  have h₆ := h₅.step (Step.batch _ .main _ [] rfl rfl)
  exact ⟨_, _, ⟨sampleScheduler, ⟨rfl, rfl, rfl, rfl, rfl, rfl, rfl, rfl, rfl⟩, h₆⟩, rfl⟩

theorem one_batch_scheduled :
    ∃ tr s, (machine sampleConfig).Run tr s ∧ batchPools tr = [.main]
      ∧ ∀ pre s₀ pool i hits post, tr = pre ++ (s₀, .batch pool i hits) :: post →
        s₀.batchIndex.toNat = (batchPools pre).length
          ∧ (pool = .dev ↔ (batchPools pre).length % 100 = 99 ∧ (s₀.states .dev).isSome)
          ∧ s₀.states pool = some i
          ∧ ∀ pool', ∃ before s₁, LastLook pool' pre before s₁
            ∧ SameJob (s₀.states pool') (s₁.slots pool').inner
            ∧ (s₁.slots pool').inner.map Instance.value = Machine.latest (jobOf pool') before := by
  obtain ⟨tr, s, hrun, hpools⟩ := one_batch_run
  refine ⟨tr, s, hrun, hpools, ?_⟩
  intro pre s₀ pool i hits post hsplit
  obtain ⟨hindex, hdev, hstate, hlooks, -⟩ :=
    (gpu_schedule sampleConfig hrun (by rw [hpools]; decide)).1 pre s₀ pool i hits post hsplit
  exact ⟨hindex, hdev, hstate, hlooks⟩

end Devfund
