/-
The 256-bit integers of the miner (`src/target.rs`).

`Uint256` is four little-endian 64-bit words, and so is every hash.  Comparison
walks the words from the most significant one down; `cmp_eq` says that this is
the order of the integers, so that targets and proofs of work can be compared
as numbers (`le_iff`, `lt_iff`).
-/
import VelkarMiner.DigitOrder
import VelkarMiner.Words

open Bytes

/-- Little-endian large integer type. -/
structure Uint256 where
  words : Vector U64 4
deriving DecidableEq

/-- A hash is a 256-bit integer. -/
abbrev Hash := Uint256

namespace Uint256

@[ext] theorem ext {x y : Uint256} (h : x.words = y.words) : x = y := by
  cases x
  cases y
  simp_all

/-! ### Words and bytes -/

def fromU64 (init : U64) : Uint256 := ⟨(Vector.replicate 4 0).set 0 init⟩

def fromLeBytes (bytes : Vector Byte 32) : Uint256 := ⟨wordsOfBytes (n := 4) bytes⟩

def toLeBytes (x : Uint256) : Vector Byte 32 := bytesOfWords x.words

def toLeU64 (x : Uint256) : Vector U64 4 := x.words

def fromLeU64 (arr : Vector U64 4) : Uint256 := ⟨arr⟩

@[simp] theorem fromLeBytes_toLeBytes (x : Uint256) : fromLeBytes x.toLeBytes = x := by
  apply ext
  exact wordsOfBytes_bytesOfWords x.words

@[simp] theorem toLeBytes_fromLeBytes (b : Vector Byte 32) : (fromLeBytes b).toLeBytes = b :=
  bytesOfWords_wordsOfBytes (n := 4) b

theorem getElem_toLeBytes (x : Uint256) (i : ℕ) (h : i < 32) :
    x.toLeBytes[i] = leByte x.words[i / 8] (i % 8) :=
  getElem_bytesOfWords x.words i h

/-! ### The value -/

/-- The integer represented. -/
def toNat (x : Uint256) : ℕ :=
  x.words[0].toNat + 2 ^ 64 * (x.words[1].toNat + 2 ^ 64 * (x.words[2].toNat
    + 2 ^ 64 * x.words[3].toNat))

theorem toNat_lt (x : Uint256) : x.toNat < 2 ^ 256 := by
  have h0 := x.words[0].isLt
  have h1 := x.words[1].isLt
  have h2 := x.words[2].isLt
  have h3 := x.words[3].isLt
  unfold toNat
  omega

theorem toNat_injective : Function.Injective toNat := by
  intro x y h
  have hx : ∀ i (hi : i < 4), x.words[i].toNat = y.words[i].toNat := by
    have h0 := x.words[0].isLt; have h1 := x.words[1].isLt
    have h2 := x.words[2].isLt; have h3 := x.words[3].isLt
    have k0 := y.words[0].isLt; have k1 := y.words[1].isLt
    have k2 := y.words[2].isLt; have k3 := y.words[3].isLt
    unfold toNat at h
    intro i hi
    have : i = 0 ∨ i = 1 ∨ i = 2 ∨ i = 3 := by omega
    rcases this with rfl | rfl | rfl | rfl <;> omega
  apply ext
  apply Vector.ext
  intro i hi
  exact BitVec.eq_of_toNat_eq (hx i hi)

/-! ### Order -/

/-- Comparison of the words, most significant word first. -/
def cmpWords : List U64 → List U64 → Ordering
  | [], [] => .eq
  | [], _ :: _ => .lt
  | _ :: _, [] => .gt
  | a :: as, b :: bs => (compare a.toNat b.toNat).then (cmpWords as bs)

def cmp (x y : Uint256) : Ordering := cmpWords x.words.toList.reverse y.words.toList.reverse

def partialCmp (x y : Uint256) : Option Ordering := some (cmp x y)

instance : LE Uint256 := ⟨fun x y => (cmp x y).isLE = true⟩
instance : LT Uint256 := ⟨fun x y => cmp x y = .lt⟩
instance (x y : Uint256) : Decidable (x ≤ y) := inferInstanceAs (Decidable ((cmp x y).isLE = true))
instance (x y : Uint256) : Decidable (x < y) := inferInstanceAs (Decidable (cmp x y = .lt))

theorem toList_words (x : Uint256) :
    x.words.toList = [x.words[0], x.words[1], x.words[2], x.words[3]] := by
  apply List.ext_getElem
  · simp
  · intro i h₁ h₂
    have : i = 0 ∨ i = 1 ∨ i = 2 ∨ i = 3 := by simp at h₁; omega
    rcases this with rfl | rfl | rfl | rfl <;> simp

theorem cmpWords_eq (as bs : List U64) :
    cmpWords as bs = as.compareLex (fun a b => compare a.toNat b.toNat) bs := by
  induction as generalizing bs with
  | nil => cases bs <;> rfl
  | cons a as ih =>
    cases bs with
    | nil => rfl
    | cons b bs => rw [cmpWords, ih, List.compareLex_cons_cons]

/-- The words are the digits to base `2 ^ 64`. -/
theorem toNat_eq_ofDigits (x : Uint256) :
    x.toNat = Nat.ofDigits (2 ^ 64) (x.words.toList.map BitVec.toNat) := by
  rw [toList_words]
  simp only [List.map_cons, List.map_nil, Nat.ofDigits_cons, Nat.ofDigits_nil, Nat.mul_zero,
    Nat.add_zero]
  rfl

/-- The comparison of the code is the comparison of the integers. -/
theorem cmp_eq (x y : Uint256) : cmp x y = compare x.toNat y.toNat := by
  rw [cmp, cmpWords_eq, toNat_eq_ofDigits x, toNat_eq_ofDigits y]
  exact DigitOrder.compareLex_reverse (by norm_num) (by simp) (fun a _ => a.isLt)
    (fun b _ => b.isLt) fun _ _ _ _ => rfl

theorem le_iff (x y : Uint256) : x ≤ y ↔ x.toNat ≤ y.toNat := by
  change (cmp x y).isLE = true ↔ _
  rw [cmp_eq]
  exact Nat.isLE_compare

theorem lt_iff (x y : Uint256) : x < y ↔ x.toNat < y.toNat := by
  change cmp x y = .lt ↔ _
  rw [cmp_eq, compare_lt_iff_lt]

theorem not_le {x y : Uint256} : ¬ x ≤ y ↔ y < x := by
  rw [le_iff, lt_iff, Nat.not_le]

end Uint256
