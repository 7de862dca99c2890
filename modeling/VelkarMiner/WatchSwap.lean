/-
The slot that hands jobs to the workers (`src/swap_rust.rs`).

`swap` allocates a new instance for every value it stores; a worker's handle
caches the instance it has seen last and compares pointers.  A handle keeps its
cached instance alive, so no later instance can have its address: comparing
pointers is comparing instances, and the model numbers them.
-/
import Mathlib.Tactic

/-- A stored value, and which of the stored ones it is. -/
structure Instance (α : Type*) where
  stamp : ℕ
  value : α

/-- The shared slot, and the number of swaps so far. -/
structure Slot (α : Type*) where
  inner : Option (Instance α)
  swaps : ℕ

namespace Slot

variable {α : Type*}

def empty : Slot α := ⟨none, 0⟩

/-- `RefCnt::as_ptr`: the pointer of `None` is null. -/
def ptr (x : Option (Instance α)) : Option ℕ := x.map Instance.stamp

def swap (self : Slot α) (val : Option α) : Slot α :=
  ⟨val.map (⟨self.swaps, ·⟩), self.swaps + 1⟩

/-- The pointer in the slot is not the cached one. -/
def Changed (self : Slot α) (cached : Option (Instance α)) : Prop := ptr self.inner ≠ ptr cached

instance (self : Slot α) (cached : Option (Instance α)) : Decidable (self.Changed cached) :=
  inferInstanceAs (Decidable (_ ≠ _))

/-- The cached instance after `get_changed`. -/
def getChanged (self : Slot α) (cached : Option (Instance α)) : Option (Instance α) :=
  if self.Changed cached then self.inner else cached

theorem getChanged_of_changed {self : Slot α} {cached : Option (Instance α)}
    (h : self.Changed cached) : self.getChanged cached = self.inner := if_pos h

/-- The instance with number `k` is held. -/
def Holds (x : Option (Instance α)) (k : ℕ) : Prop := ∃ i ∈ x, i.stamp = k

@[simp] theorem holds_none (k : ℕ) : ¬ Holds (none : Option (Instance α)) k := by
  rintro ⟨i, hi, -⟩
  cases hi

@[simp] theorem holds_some (i : Instance α) (k : ℕ) : Holds (some i) k ↔ i.stamp = k := by
  simp [Holds]

theorem ptr_eq_some_iff {x : Option (Instance α)} {k : ℕ} : ptr x = some k ↔ Holds x k := by
  simp [ptr, Holds]

/-- After `get_changed` the pointers agree. -/
theorem ptr_getChanged (self : Slot α) (cached : Option (Instance α)) :
    ptr (self.getChanged cached) = ptr self.inner := by
  rw [getChanged]
  split
  case isTrue => rfl
  case isFalse h => exact (not_not.mp h).symm

/-- A state that is replaced along with the cached instance stays the one seen last. -/
theorem holds_getChanged {self : Slot α} {cached state : Option (Instance α)} {i : Instance α}
    (hheld : state = some i → Holds cached i.stamp)
    (hi : (if self.Changed cached then self.inner else state) = some i) :
    Holds (self.getChanged cached) i.stamp := by
  rw [getChanged]
  split at hi
  case isTrue hchanged =>
    rw [if_pos hchanged]
    exact ⟨i, hi, rfl⟩
  case isFalse hsame =>
    rw [if_neg hsame]
    exact hheld hi

/-- An instance that has left the slot does not come back: it is not held, and new
instances have larger numbers. -/
structure Gone (slot : Slot α) (k : ℕ) : Prop where
  not_holds : ¬ Holds slot.inner k
  lt_swaps : k < slot.swaps

theorem Gone.swap {self : Slot α} {k : ℕ} (h : self.Gone k) (val : Option α) :
    (self.swap val).Gone k := by
  refine ⟨?_, Nat.lt_succ_of_lt h.lt_swaps⟩
  rintro ⟨i, hi, hk⟩
  obtain ⟨v, -, rfl⟩ := Option.map_eq_some_iff.mp hi
  have := h.lt_swaps
  simp only at hk
  omega

/-- Instances are numbered below the number of swaps. -/
def Numbered (self : Slot α) (x : Option (Instance α)) : Prop := ∀ i ∈ x, i.stamp < self.swaps

theorem numbered_none (self : Slot α) : self.Numbered none := by
  intro i hi
  cases hi

theorem numbered_swap (self : Slot α) (val : Option α) :
    (self.swap val).Numbered (self.swap val).inner := by
  intro i hi
  obtain ⟨v, -, rfl⟩ := Option.map_eq_some_iff.mp hi
  exact Nat.lt_succ_self _

theorem Numbered.swap {self : Slot α} {x : Option (Instance α)} (h : self.Numbered x)
    (val : Option α) : (self.swap val).Numbered x :=
  fun i hi => Nat.lt_succ_of_lt (h i hi)

theorem Numbered.getChanged {self : Slot α} {x : Option (Instance α)} (h : self.Numbered x)
    (hinner : self.Numbered self.inner) : self.Numbered (self.getChanged x) := by
  rw [Slot.getChanged]
  split
  · exact hinner
  · exact h

/-- What a swap takes out of the slot is gone. -/
theorem gone_of_swap {self : Slot α} (h : self.Numbered self.inner) {i : Instance α}
    (hi : self.inner = some i) (val : Option α) : (self.swap val).Gone i.stamp := by
  have hlt := h i hi
  refine ⟨?_, Nat.lt_succ_of_lt hlt⟩
  rintro ⟨j, hj, hk⟩
  obtain ⟨v, -, rfl⟩ := Option.map_eq_some_iff.mp hj
  simp only at hk
  omega

/-- A handle that has looked at the slot does not hold what is gone from it. -/
theorem Gone.not_holds_of_ptr {self : Slot α} {k : ℕ} (h : self.Gone k) {x : Option (Instance α)}
    (hx : ptr x = ptr self.inner) : ¬ Holds x k := by
  rw [← ptr_eq_some_iff, hx, ptr_eq_some_iff]
  exact h.not_holds

end Slot
