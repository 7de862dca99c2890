/-
The permutation Keccak-f[1600], after FIPS 202.

A state is the 25 lanes `A[x + 5y]`.  The five step mappings are stated lane by
lane, and the two tables of the standard are computed from the algorithms that
define them rather than copied:

* `rhoOffsets` — the rotation offsets, from the walk of Algorithm 2;
* `roundConstant` — the ι constants, from the shift register of Algorithm 5;
* `keccakF` — the composition ι ∘ χ ∘ π ∘ ρ ∘ θ over 24 rounds.
-/
import VelkarMiner.Words

namespace Keccak

/-- A state of Keccak-f[1600]: lane `(x, y)` at index `x + 5y`. -/
abbrev Lanes := Vector U64 25

/-- Lane `(x, y)`, coordinates taken modulo 5. -/
def lane (A : Lanes) (x y : ℕ) : U64 :=
  A[x % 5 + 5 * (y % 5)]

/-- The state with lane `(x, y)` equal to `f x y`. -/
def ofLanes (f : ℕ → ℕ → U64) : Lanes := Vector.ofFn fun i => f (i.val % 5) (i.val / 5)

@[simp] theorem getElem_ofLanes (f : ℕ → ℕ → U64) (i : ℕ) (h : i < 25) :
    (ofLanes f)[i] = f (i % 5) (i / 5) := by
  simp [ofLanes]

/-! ### The step mappings -/

/-- The parity of column `x`. -/
def column (A : Lanes) (x : ℕ) : U64 :=
  lane A x 0 ^^^ lane A x 1 ^^^ lane A x 2 ^^^ lane A x 3 ^^^ lane A x 4

def theta (A : Lanes) : Lanes :=
  ofLanes fun x y => lane A x y ^^^ (column A (x + 4) ^^^ (column A (x + 1)).rotateLeft 1)

/-- The position reached after `t` steps of `(x, y) ↦ (y, 2x + 3y)` from `(1, 0)`. -/
def rhoWalk : ℕ → ℕ × ℕ
  | 0 => (1, 0)
  | t + 1 => ((rhoWalk t).2, (2 * (rhoWalk t).1 + 3 * (rhoWalk t).2) % 5)

/-- The rotation offsets: the lane reached at step `t` is rotated by
`(t + 1)(t + 2) / 2`, and lane `(0, 0)` is not rotated. -/
def rhoOffsets : Vector ℕ 25 :=
  (List.range 24).foldl
    (fun off t =>
      off.setIfInBounds ((rhoWalk t).1 + 5 * (rhoWalk t).2) ((t + 1) * (t + 2) / 2 % 64))
    (Vector.replicate 25 0)

def rhoOffset (x y : ℕ) : ℕ := rhoOffsets[x % 5 + 5 * (y % 5)]

def rho (A : Lanes) : Lanes := ofLanes fun x y => (lane A x y).rotateLeft (rhoOffset x y)

def pi (A : Lanes) : Lanes := ofLanes fun x y => lane A (x + 3 * y) x

def chi (A : Lanes) : Lanes :=
  ofLanes fun x y => lane A x y ^^^ (~~~ lane A (x + 1) y &&& lane A (x + 2) y)

/-- One step of the shift register of Algorithm 5; bit `i` of the vector is `R[i]`. -/
def rcStep (R : BitVec 8) : BitVec 8 := (R <<< 1) ^^^ (if R.msb then 0x71#8 else 0#8)

/-- The output bit `rc(t)`. -/
def rc (t : ℕ) : Bool := (Nat.iterate rcStep (t % 255) 1#8).getLsbD 0

/-- The round constant of round `ir`: bit `2^j - 1` is `rc(j + 7 ir)`. -/
def roundConstant (ir : ℕ) : U64 :=
  (List.range 7).foldl
    (fun acc j => if rc (j + 7 * ir) then acc ||| 1#64 <<< (2 ^ j - 1) else acc) 0#64

def iota (A : Lanes) (ir : ℕ) : Lanes := A.set 0 (A[0] ^^^ roundConstant ir)

/-- One round. -/
def round (A : Lanes) (ir : ℕ) : Lanes := iota (chi (pi (rho (theta A)))) ir

/-- Keccak-f[1600]. -/
def keccakF (A : Lanes) : Lanes := (List.range 24).foldl round A

/-! ### The lanes of a round -/

theorem lane_ofLanes (f : ℕ → ℕ → U64) (x y : ℕ) :
    lane (ofLanes f) x y = f (x % 5) (y % 5) := by
  rw [lane, getElem_ofLanes]
  congr 1 <;> omega

theorem getElem_eq_lane (A : Lanes) (i : ℕ) (h : i < 25) : A[i] = lane A (i % 5) (i / 5) := by
  have hi : i % 5 % 5 + 5 * (i / 5 % 5) = i := by omega
  simp only [lane, hi]

/-- ρ followed by π moves lane `(x + 3y, x)`, rotated, to lane `(x, y)`. -/
theorem getElem_pi_rho (A : Lanes) (i : ℕ) (h : i < 25) :
    (pi (rho A))[i] = (lane A (i % 5 + 3 * (i / 5)) (i % 5)).rotateLeft
      (rhoOffset (i % 5 + 3 * (i / 5)) (i % 5)) := by
  rw [pi, getElem_ofLanes, rho, lane_ofLanes]
  have h5 : ∀ a b : ℕ, lane A (a % 5) (b % 5) = lane A a b := by
    intro a b
    simp only [lane, Nat.mod_mod]
  have ho : ∀ a b : ℕ, rhoOffset (a % 5) (b % 5) = rhoOffset a b := by
    intro a b
    simp only [rhoOffset, Nat.mod_mod]
  rw [h5, ho]

end Keccak
