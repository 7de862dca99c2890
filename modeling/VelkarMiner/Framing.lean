/-
Frames on a stream.

Each frame is followed by a separator that no frame contains, so the stream can be
cut back into its frames.  What has arrived of the stream is a prefix of it.

* `cut_frames` — the frames are read back;
* `cut_of_prefix` — of a prefix, the first of them are read back, and the rest is
  the beginning of the next.
-/
import Mathlib.Data.List.Basic

namespace Framing

variable {α : Type*} (sep : α)

/-- The stream of some frames. -/
def frames (xs : List (List α)) : List α := xs.flatMap fun x => x ++ [sep]

@[simp] theorem frames_nil : frames sep [] = [] := rfl

@[simp] theorem frames_cons (x : List α) (xs : List (List α)) :
    frames sep (x :: xs) = x ++ sep :: frames sep xs := by
  simp [frames]

@[simp] theorem frames_append (xs ys : List (List α)) :
    frames sep (xs ++ ys) = frames sep xs ++ frames sep ys :=
  List.flatMap_append

/-- Fewer frames are a prefix of the stream. -/
theorem frames_prefix {xs ys : List (List α)} (h : xs <+: ys) :
    frames sep xs <+: frames sep ys := by
  obtain ⟨zs, rfl⟩ := h
  rw [frames_append]
  exact List.prefix_append _ _

/-- A prefix of a stream ends in the middle of one of its frames. -/
theorem prefix_cases {xs : List (List α)} {s : List α} (h : s <+: frames sep xs) :
    ∃ ys rest, ys <+: xs ∧ s = frames sep ys ++ rest
      ∧ (rest = [] ∨ ∃ x, ys ++ [x] <+: xs ∧ rest <+: x) := by
  induction xs generalizing s with
  | nil =>
    obtain rfl : s = [] := by simpa using h
    exact ⟨[], [], List.prefix_refl [], rfl, Or.inl rfl⟩
  | cons x xs ih =>
    rw [frames_cons] at h
    rcases List.prefix_or_prefix_of_prefix h (List.prefix_append x (sep :: frames sep xs)) with
      hs | ⟨t, rfl⟩
    · exact ⟨[], s, List.nil_prefix, rfl, Or.inr ⟨x, ⟨xs, rfl⟩, hs⟩⟩
    · have ht := (List.prefix_append_right_inj x).mp h
      cases t with
      | nil => exact ⟨[], x, List.nil_prefix, by simp, Or.inr ⟨x, ⟨xs, rfl⟩, List.prefix_refl x⟩⟩
      | cons a t =>
        rw [List.cons_prefix_cons] at ht
        obtain ⟨rfl, ht⟩ := ht
        obtain ⟨ys, rest, hys, rfl, hrest⟩ := ih ht
        refine ⟨x :: ys, rest, List.cons_prefix_cons.mpr ⟨rfl, hys⟩, by simp, ?_⟩
        rcases hrest with hnil | ⟨y, hy, hrest⟩
        · exact Or.inl hnil
        · exact Or.inr ⟨y, List.cons_prefix_cons.mpr ⟨rfl, hy⟩, hrest⟩

variable [DecidableEq α]

/-- The complete frames of a stream, and what comes behind the last separator. -/
def cut : List α → List (List α) × List α
  | [] => ([], [])
  | a :: s =>
    if a = sep then ([] :: (cut s).1, (cut s).2)
    else
      match (cut s).1 with
      | [] => ([], a :: (cut s).2)
      | x :: xs => ((a :: x) :: xs, (cut s).2)

theorem cut_frame {x : List α} (hx : sep ∉ x) (s : List α) :
    cut sep (x ++ sep :: s) = (x :: (cut sep s).1, (cut sep s).2) := by
  induction x with
  | nil => simp [cut]
  | cons a x ih =>
    rw [List.mem_cons, not_or] at hx
    rw [List.cons_append, cut, if_neg (fun h => hx.1 h.symm), ih hx.2]

theorem cut_rest {rest : List α} (hrest : sep ∉ rest) : cut sep rest = ([], rest) := by
  induction rest with
  | nil => rfl
  | cons a rest ih =>
    rw [List.mem_cons, not_or] at hrest
    rw [cut, if_neg (fun h => hrest.1 h.symm), ih hrest.2]

/-- The frames of a stream are read back. -/
theorem cut_frames {xs : List (List α)} (hxs : ∀ x ∈ xs, sep ∉ x) {rest : List α}
    (hrest : sep ∉ rest) : cut sep (frames sep xs ++ rest) = (xs, rest) := by
  induction xs with
  | nil => exact cut_rest sep hrest
  | cons x xs ih =>
    rw [frames_cons, List.append_assoc, List.cons_append, cut_frame sep (hxs x (by simp)),
      ih fun y hy => hxs y (List.mem_cons_of_mem x hy)]

/-- What has arrived of a stream is cut into the first of its frames and the beginning of the
next. -/
theorem cut_of_prefix {xs : List (List α)} (hxs : ∀ x ∈ xs, sep ∉ x) {s : List α}
    (h : s <+: frames sep xs) :
    (cut sep s).1 <+: xs ∧ s = frames sep (cut sep s).1 ++ (cut sep s).2 := by
  obtain ⟨ys, rest, hys, rfl, hrest⟩ := prefix_cases sep h
  have hsep : sep ∉ rest := by
    rcases hrest with rfl | ⟨x, hx, hrest⟩
    · simp
    · exact fun hmem => hxs x (hx.subset (by simp)) (hrest.subset hmem)
  rw [cut_frames sep (fun x hx => hxs x (hys.subset hx)) hsep]
  exact ⟨hys, rfl⟩

end Framing
