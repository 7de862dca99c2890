/-
The permutation in assembly (`src/asm/keccakf1600_x86-64-elf.s`), one round.

On x86-64 the miner's hashes call `KeccakF1600`.  Its loop keeps six lanes
complemented, which saves most of the complements of χ, reads one array and writes
the other, and carries the last row in registers.  The loop is written here in pieces,
cut where a plane is stored; `program` puts them together again.

* `theta_columns` — the first piece computes the column words of θ;
* `row0_spec`, `plane0_spec`, … — each plane is stored as χ of its five rotated lanes.
-/
import VelkarMiner.X86
import VelkarMiner.Keccak

open X86 X86.Reg

namespace KeccakAsm

/-! ### The code -/

inductive Label
  | __KeccakF1600
  | Loop
  | KeccakF1600
deriving DecidableEq

inductive Data
  | iotas

/-- The words at `iotas`, which starts 64 bytes after an address divisible by 256. -/
def iotas : List U64 :=
  [0x0000000000000001, 0x0000000000008082, 0x800000000000808a, 0x8000000080008000,
    0x000000000000808b, 0x0000000080000001, 0x8000000080008081, 0x8000000000008009,
    0x000000000000008a, 0x0000000000000088, 0x0000000080008009, 0x000000008000000a,
    0x000000008000808b, 0x800000000000008b, 0x8000000000008089, 0x8000000000008003,
    0x8000000000008002, 0x8000000000000080, 0x000000000000800a, 0x800000008000000a,
    0x8000000080008081, 0x8000000000008080, 0x0000000080000001, 0x8000000080008008]

/-- Up to the jump into the loop: the last row. -/
def entry : List Op :=
  [.endbr64,
    .mov (.mem 60 rdi) rax, .mov (.mem 68 rdi) rbx, .mov (.mem 76 rdi) rcx,
    .mov (.mem 84 rdi) rdx, .mov (.mem 92 rdi) rbp]

/-- The column parities, and the lanes of plane 0. -/
def thetaOps : List Op :=
  [.mov (.mem (-100) rdi) r8, .mov (.mem (-52) rdi) r9, .mov (.mem (-4) rdi) r10,
    .mov (.mem 44 rdi) r11,
    .xor (.mem (-84) rdi) rcx, .xor (.mem (-76) rdi) rdx, .xor r8 rax, .xor (.mem (-92) rdi) rbx,
    .xor (.mem (-44) rdi) rcx, .xor (.mem (-60) rdi) rax, .mov rbp r12, .xor (.mem (-68) rdi) rbp,
    .xor r10 rcx, .xor (.mem (-20) rdi) rax, .xor (.mem (-36) rdi) rdx, .xor r9 rbx,
    .xor (.mem (-28) rdi) rbp,
    .xor (.mem 36 rdi) rcx, .xor (.mem 20 rdi) rax, .xor (.mem 4 rdi) rdx,
    .xor (.mem (-12) rdi) rbx, .xor (.mem 12 rdi) rbp,
    .mov rcx r13, .rol 1 rcx, .xor rax rcx, .xor r11 rdx,
    .rol 1 rax, .xor rdx rax, .xor (.mem 28 rdi) rbx,
    .rol 1 rdx, .xor rbx rdx, .xor (.mem 52 rdi) rbp,
    .rol 1 rbx, .xor rbp rbx,
    .rol 1 rbp, .xor r13 rbp]

def row0 : List Op :=
  [.xor rcx r9, .xor rdx r10, .rol 44 r9, .xor rbp r11, .xor rax r12, .rol 43 r10, .xor rbx r8,
    .mov r9 r13, .rol 21 r11, .or r10 r9, .xor r8 r9, .rol 14 r12]

def iotaOps : List Op :=
  [.xor (.mem 0 r15) r9, .lea 8 r15 r15]

def plane0 : List Op :=
  [.mov r12 r14, .and r11 r12, .mov r9 (.mem (-100) rsi), .xor r10 r12, .not r10,
    .mov r12 (.mem (-84) rsi),
    .or r11 r10, .mov (.mem 76 rdi) r12, .xor r13 r10, .mov r10 (.mem (-92) rsi),
    .and r8 r13, .mov (.mem (-28) rdi) r9, .xor r14 r13, .mov (.mem (-20) rdi) r10,
    .mov r13 (.mem (-68) rsi),
    .or r8 r14, .mov (.mem (-76) rdi) r8, .xor r11 r14, .mov (.mem 28 rdi) r11,
    .mov r14 (.mem (-76) rsi)]

def plane1 : List Op :=
  [.xor rbp r8, .xor rdx r12, .rol 28 r8, .xor rcx r11, .xor rax r9, .rol 61 r12, .rol 45 r11,
    .xor rbx r10, .rol 20 r9, .mov r8 r13, .or r12 r8, .rol 3 r10,
    .xor r11 r8, .mov r8 (.mem (-36) rsi),
    .mov r9 r14, .and r13 r9, .mov (.mem (-92) rdi) r8, .xor r12 r9, .not r12,
    .mov r9 (.mem (-28) rsi),
    .or r11 r12, .mov (.mem (-44) rdi) r9, .xor r10 r12, .mov r12 (.mem (-44) rsi),
    .and r10 r11, .mov (.mem 60 rdi) r12, .xor r14 r11, .mov r11 (.mem (-52) rsi),
    .or r10 r14, .mov (.mem 4 rdi) r10, .xor r13 r14, .mov (.mem 52 rdi) r11,
    .mov r14 (.mem (-60) rsi)]

def plane2 : List Op :=
  [.xor rbp r10, .xor rax r11, .rol 25 r10, .xor rdx r9, .rol 8 r11, .xor rbx r12, .rol 6 r9,
    .xor rcx r8, .rol 18 r12, .mov r10 r13, .and r11 r10, .rol 1 r8,
    .not r11, .xor r9 r10, .mov r10 (.mem (-12) rsi),
    .mov r12 r14, .and r11 r12, .mov (.mem (-12) rdi) r10, .xor r13 r12, .mov r12 (.mem (-4) rsi),
    .or r9 r13, .mov (.mem 84 rdi) r12, .xor r8 r13, .mov r13 (.mem (-20) rsi),
    .and r8 r9, .xor r14 r9, .mov r9 (.mem 12 rsi),
    .or r8 r14, .mov (.mem (-60) rdi) r9, .xor r11 r14, .mov (.mem 36 rdi) r11,
    .mov r14 (.mem 4 rsi),
    .mov (.mem (-68) rdi) r8]

def plane3 : List Op :=
  [.xor rcx r10, .xor rdx r11, .rol 10 r10, .xor rbx r9, .rol 15 r11, .xor rbp r12, .rol 36 r9,
    .xor rax r8, .rol 56 r12, .mov r10 r13, .or r11 r10, .rol 27 r8,
    .not r11, .xor r9 r10, .mov r10 (.mem 28 rsi),
    .mov r12 r14, .or r11 r12, .xor r13 r12, .mov r12 (.mem 36 rsi),
    .and r9 r13, .xor r8 r13, .mov r13 (.mem 20 rsi),
    .or r8 r9, .xor r14 r9, .mov r9 (.mem 52 rsi),
    .and r14 r8, .xor r11 r8, .mov r8 (.mem 44 rsi)]

def row4 : List Op :=
  [.xor (.mem (-84) rdi) rdx, .xor (.mem (-36) rdi) rbp, .rol 62 rdx, .xor (.mem 68 rdi) rcx,
    .rol 55 rbp, .xor (.mem 12 rdi) rax, .rol 2 rcx, .xor (.mem 20 rdi) rbx]

/-- After the two pointers have been exchanged. -/
def plane4 : List Op :=
  [.rol 39 rax, .rol 41 rbx, .mov rdx r13, .and rbp rdx, .not rbp, .xor rcx rdx,
    .mov rdx (.mem 92 rdi),
    .mov rax r14, .and rbp rax, .xor r13 rax, .mov rax (.mem 60 rdi),
    .or rcx r13, .xor rbx r13, .mov r13 (.mem 84 rdi),
    .and rbx rcx, .xor r14 rcx, .mov rcx (.mem 76 rdi),
    .or r14 rbx, .xor rbp rbx, .mov rbx (.mem 68 rdi),
    .mov rdx rbp, .mov r13 rdx]

/-- The loop, up to the test of the low byte of the pointer to the constants. -/
def loopOps : List Op :=
  thetaOps ++ row0 ++ iotaOps ++ plane0 ++ plane1 ++ plane2 ++ plane3 ++ row4 ++ [.xchg rsi rdi]
    ++ plane4 ++ [.test 255 r15]

def prologue : List Op :=
  [.endbr64,
    .push rbx, .push rbp, .push r12, .push r13, .push r14, .push r15,
    .lea 100 rdi rdi, .sub 200 rsp,
    .not (.mem (-92) rdi), .not (.mem (-84) rdi), .not (.mem (-36) rdi), .not (.mem (-4) rdi),
    .not (.mem 36 rdi), .not (.mem 60 rdi)]

def epilogue : List Op :=
  [.not (.mem (-92) rdi), .not (.mem (-84) rdi), .not (.mem (-36) rdi), .not (.mem (-4) rdi),
    .not (.mem 36 rdi), .not (.mem 60 rdi), .lea (-100) rdi rdi,
    .lea 248 rsp r11, .mov (.mem (-48) r11) r15, .mov (.mem (-40) r11) r14,
    .mov (.mem (-32) r11) r13, .mov (.mem (-24) r11) r12, .mov (.mem (-16) r11) rbp,
    .mov (.mem (-8) r11) rbx, .lea 0 r11 rsp]

def program : Program Label Data :=
  [(.__KeccakF1600, entry.map .op ++ [.jmp .Loop]),
    (.Loop, loopOps.map .op ++ [.jnz .Loop, .op (.lea (-192) r15 r15), .ret]),
    (.KeccakF1600, prologue.map .op
      ++ [.leaRip .iotas r15, .op (.lea 100 rsp rsi), .call .__KeccakF1600]
      ++ epilogue.map .op ++ [.ret])]

/-! ### The lanes between the pieces -/

open Keccak (Lanes lane column)

/-- Lane `i` as the code keeps it. -/
def flip (i : ℕ) (x : U64) : U64 := if i ∈ [1, 2, 8, 12, 17, 20] then ~~~x else x

/-- The 25 words that stand for the lanes `A`. -/
def flipped (A : Lanes) (i : ℕ) : U64 := flip i (lane A (i % 5) (i / 5))

/-- The column words of θ. -/
def mix (A : Lanes) (x : ℕ) : U64 := column A (x + 4) ^^^ (column A (x + 1)).rotateLeft 1

/-- Lane `(x, y)` after θ, ρ and π. -/
def shuffled (A : Lanes) (x y : ℕ) : U64 := lane (Keccak.pi (Keccak.rho (Keccak.theta A))) x y

/-- Lane `(x, y)` after χ. -/
def chiLane (A : Lanes) (y x : ℕ) : U64 :=
  shuffled A x y ^^^ (~~~shuffled A ((x + 1) % 5) y &&& shuffled A ((x + 2) % 5) y)

/-- The registers at the top of the loop: the last row of the words. -/
structure LastRow {μ : Type} (words : ℕ → U64) (w : Core μ) : Prop where
  rax_eq : w.reg rax = words 20
  rbx_eq : w.reg rbx = words 21
  rcx_eq : w.reg rcx = words 22
  rdx_eq : w.reg rdx = words 23
  rbp_eq : w.reg rbp = words 24

/-- The registers with the column words, two of them complemented. -/
structure Columns (A : Lanes) (w : Core (ℕ → U64)) : Prop where
  rax_eq : w.reg rax = mix A 4
  rbx_eq : w.reg rbx = ~~~mix A 0
  rcx_eq : w.reg rcx = mix A 1
  rdx_eq : w.reg rdx = mix A 2
  rbp_eq : w.reg rbp = ~~~mix A 3

/-- With them, the five lanes that ρ and π take to plane `y`. -/
structure Loaded (A : Lanes) (y : ℕ) (w : Core (ℕ → U64)) : Prop extends Columns A w where
  r8_eq : w.reg r8 = flipped A (3 * y % 5)
  r9_eq : w.reg r9 = flipped A ((1 + 3 * y) % 5 + 5)
  r10_eq : w.reg r10 = flipped A ((2 + 3 * y) % 5 + 10)
  r11_eq : w.reg r11 = flipped A ((3 + 3 * y) % 5 + 15)
  r12_eq : w.reg r12 = flipped A ((4 + 3 * y) % 5 + 20)

/-- The first lane of plane 0 is done, its other lanes are rotated. -/
structure FirstLane (A : Lanes) (x : U64) (w : Core (ℕ → U64)) : Prop extends Columns A w where
  r8_eq : w.reg r8 = ~~~shuffled A 0 0
  r9_eq : w.reg r9 = x
  r10_eq : w.reg r10 = ~~~shuffled A 2 0
  r11_eq : w.reg r11 = ~~~shuffled A 3 0
  r12_eq : w.reg r12 = shuffled A 4 0
  r13_eq : w.reg r13 = shuffled A 1 0

/-- The lanes of plane 4, two of them still to be rotated. -/
structure LastPlane (A : Lanes) (w : Core (ℕ → U64)) : Prop where
  rax_eq : (w.reg rax).rotateLeft 39 = shuffled A 2 4
  rbx_eq : (w.reg rbx).rotateLeft 41 = ~~~shuffled A 3 4
  rcx_eq : w.reg rcx = shuffled A 4 4
  rdx_eq : w.reg rdx = ~~~shuffled A 0 4
  rbp_eq : w.reg rbp = shuffled A 1 4

/-- A plane is written, complemented where the code keeps it so, and nothing else. -/
structure Stored (y : ℕ) (plane : ℕ → U64) (dst dst' : ℕ → U64) : Prop where
  own : ∀ x < 5, dst' (x + 5 * y) = flip (x + 5 * y) (plane x)
  rest : ∀ i, i / 5 ≠ y → dst' i = dst i

/-- The code's view of one array read and one written. -/
abbrev port (A : Lanes) : Port (ℕ → U64) := windowPort 100 (flipped A)

/-! ### θ -/

theorem rotateLeft_not (x : U64) (n : ℕ) : (~~~x).rotateLeft n = ~~~x.rotateLeft n := by
  apply BitVec.eq_of_getLsbD_eq
  intro i hi
  by_cases hlt : i < n % 64
  · simp [hi, hlt]
  · simp [hi, hlt]

/-- The parities as the code adds them up; only one column has an even number of complements. -/
theorem codeColumn (A : Lanes) :
    flipped A 20 ^^^ flipped A 0 ^^^ flipped A 5 ^^^ flipped A 10 ^^^ flipped A 15 = ~~~column A 0
      ∧ flipped A 21 ^^^ flipped A 1 ^^^ flipped A 6 ^^^ flipped A 11 ^^^ flipped A 16
        = ~~~column A 1
      ∧ flipped A 22 ^^^ flipped A 2 ^^^ flipped A 7 ^^^ flipped A 12 ^^^ flipped A 17
        = ~~~column A 2
      ∧ flipped A 23 ^^^ flipped A 3 ^^^ flipped A 8 ^^^ flipped A 13 ^^^ flipped A 18
        = ~~~column A 3
      ∧ flipped A 24 ^^^ flipped A 4 ^^^ flipped A 9 ^^^ flipped A 14 ^^^ flipped A 19
        = column A 4 := by
  have hlast : ∀ x y z u v : U64, x ^^^ y ^^^ z ^^^ u ^^^ v = y ^^^ z ^^^ u ^^^ v ^^^ x := by
    intro x y z u v
    ac_rfl
  refine ⟨?_, ?_, ?_, ?_, ?_⟩ <;>
  · rw [hlast]
    simp [flipped, flip, column, ← BitVec.not_xor_left, ← BitVec.not_xor_right]

theorem mix_eq (A : Lanes) :
    mix A 0 = (column A 1).rotateLeft 1 ^^^ column A 4
      ∧ mix A 1 = (column A 2).rotateLeft 1 ^^^ column A 0
      ∧ mix A 2 = (column A 3).rotateLeft 1 ^^^ column A 1
      ∧ mix A 3 = (column A 4).rotateLeft 1 ^^^ column A 2
      ∧ mix A 4 = (column A 0).rotateLeft 1 ^^^ column A 3 :=
  ⟨BitVec.xor_comm _ _, BitVec.xor_comm _ _, BitVec.xor_comm _ _, BitVec.xor_comm _ _,
    BitVec.xor_comm _ _⟩

theorem theta_columns {A : Lanes} {w : Core (ℕ → U64)} (h : LastRow (flipped A) w) :
    Loaded A 0 (execAll (port A) w thetaOps) ∧ (execAll (port A) w thetaOps).mem = w.mem := by
  obtain ⟨h0, h1, h2, h3, h4⟩ := codeColumn A
  obtain ⟨m0, m1, m2, m3, m4⟩ := mix_eq A
  refine ⟨⟨⟨?_, ?_, ?_, ?_, ?_⟩, ?_, ?_, ?_, ?_, ?_⟩, ?_⟩ <;>
    simp [thetaOps, h.rax_eq, h.rbx_eq, h.rcx_eq, h.rdx_eq, h.rbp_eq, h0, h1, h2, h3, h4, m0, m1,
      m2, m3, m4, rotateLeft_not, ← BitVec.not_xor_left, ← BitVec.not_xor_right]

/-! ### χ of the rotated lanes -/

/-- The rotation offsets, one row of the state after the other. -/
def offsets : Vector ℕ 25 :=
  #v[0, 1, 62, 28, 27, 36, 44, 6, 55, 20, 3, 10, 43, 25, 39, 41, 45, 15, 21, 8, 18, 2, 61, 56, 14]

theorem rhoOffset_eq (x y : ℕ) (hlt : x % 5 + 5 * (y % 5) < 25) :
    Keccak.rhoOffset x y = offsets[x % 5 + 5 * (y % 5)] := by
  have h : Keccak.rhoOffsets = offsets := by decide +kernel
  simp only [Keccak.rhoOffset, h]

theorem shuffled_eq (A : Lanes) (x y : ℕ) (hx : x < 5) (hy : y < 5) : shuffled A x y
    = (lane A ((x + 3 * y) % 5) x ^^^ mix A ((x + 3 * y) % 5)).rotateLeft
        (Keccak.rhoOffset ((x + 3 * y) % 5) x) := by
  have hx5 : x % 5 = x := Nat.mod_eq_of_lt hx
  have hy5 : y % 5 = y := Nat.mod_eq_of_lt hy
  rw [shuffled, Keccak.pi, Keccak.lane_ofLanes, Keccak.rho, Keccak.lane_ofLanes, Keccak.theta,
    Keccak.lane_ofLanes, hx5, hy5, hx5, Nat.mod_mod, hx5]
  rfl

theorem rotateLeft_zero (x : U64) : x.rotateLeft 0 = x := by
  apply BitVec.eq_of_getLsbD_eq
  intro k hk
  simp [hk]

theorem row0_spec {A : Lanes} {w : Core (ℕ → U64)} (h : Loaded A 0 w) :
    FirstLane A (chiLane A 0 0) (execAll (port A) w row0)
      ∧ (execAll (port A) w row0).mem = w.mem := by
  have hs := fun x hx => shuffled_eq A x 0 hx (by omega)
  have h0 : w.reg r8 ^^^ w.reg rbx = ~~~shuffled A 0 0 := by
    simp [h.r8_eq, h.rbx_eq, hs 0, flipped, flip, rhoOffset_eq, offsets, rotateLeft_zero, ←
      BitVec.not_xor_right]
  have h1 : (w.reg r9 ^^^ w.reg rcx).rotateLeft 44 = shuffled A 1 0 := by
    simp [h.r9_eq, h.rcx_eq, hs 1, flipped, flip, rhoOffset_eq, offsets]
  have h2 : (w.reg r10 ^^^ w.reg rdx).rotateLeft 43 = ~~~shuffled A 2 0 := by
    simp [h.r10_eq, h.rdx_eq, hs 2, flipped, flip, rhoOffset_eq, offsets, rotateLeft_not, ←
      BitVec.not_xor_left]
  have h3 : (w.reg r11 ^^^ w.reg rbp).rotateLeft 21 = ~~~shuffled A 3 0 := by
    simp [h.r11_eq, h.rbp_eq, hs 3, flipped, flip, rhoOffset_eq, offsets, rotateLeft_not, ←
      BitVec.not_xor_right]
  have h4 : (w.reg r12 ^^^ w.reg rax).rotateLeft 14 = shuffled A 4 0 := by
    simp [h.r12_eq, h.rax_eq, hs 4, flipped, flip, rhoOffset_eq, offsets]
  refine ⟨⟨⟨?_, ?_, ?_, ?_, ?_⟩, ?_, ?_, ?_, ?_, ?_, ?_⟩, ?_⟩
  iterate 5 simp [row0, h.rax_eq, h.rbx_eq, h.rcx_eq, h.rdx_eq, h.rbp_eq]
  · simp [row0, h0]
  · simp only [row0, execAll_cons, execAll_nil]
    simp [h0, h1, h2, chiLane]
    apply BitVec.eq_of_getLsbD_eq
    intro k hk
    simp [hk]
    grind
  iterate 5 simp [row0, h1, h2, h3, h4]

theorem plane0_spec {A : Lanes} {x₀ : U64} {w : Core (ℕ → U64)} (h : FirstLane A x₀ w) :
    Loaded A 1 (execAll (port A) w plane0)
      ∧ Stored 0 (fun x => if x = 0 then x₀ else chiLane A 0 x) w.mem
          (execAll (port A) w plane0).mem := by
  refine ⟨⟨⟨?_, ?_, ?_, ?_, ?_⟩, ?_, ?_, ?_, ?_, ?_⟩, ?_, ?_⟩
  iterate 10 simp [plane0, h.rax_eq, h.rbx_eq, h.rcx_eq, h.rdx_eq, h.rbp_eq]
  · intro x hx
    interval_cases x
    · simp [plane0, h.r9_eq, flip]
    all_goals
      simp [plane0, h.r8_eq, h.r9_eq, h.r10_eq, h.r11_eq, h.r12_eq, h.r13_eq, flip, chiLane]
      apply BitVec.eq_of_getLsbD_eq
      intro k hk
      simp [hk]
      grind
  · intro i hi
    have hne : ∀ k, k / 5 = 0 → i ≠ k := fun k hk e => hi (e ▸ hk)
    simp [plane0, hne]

theorem plane1_spec {A : Lanes} {w : Core (ℕ → U64)} (h : Loaded A 1 w) :
    Loaded A 2 (execAll (port A) w plane1)
      ∧ Stored 1 (chiLane A 1) w.mem (execAll (port A) w plane1).mem := by
  have hs := fun x hx => shuffled_eq A x 1 hx (by omega)
  have h0 : (w.reg r8 ^^^ w.reg rbp).rotateLeft 28 = ~~~shuffled A 0 1 := by
    simp [h.r8_eq, h.rbp_eq, hs 0, flipped, flip, rhoOffset_eq, offsets, rotateLeft_not, ←
      BitVec.not_xor_right]
  have h1 : (w.reg r9 ^^^ w.reg rax).rotateLeft 20 = shuffled A 1 1 := by
    simp [h.r9_eq, h.rax_eq, hs 1, flipped, flip, rhoOffset_eq, offsets]
  have h2 : (w.reg r10 ^^^ w.reg rbx).rotateLeft 3 = ~~~shuffled A 2 1 := by
    simp [h.r10_eq, h.rbx_eq, hs 2, flipped, flip, rhoOffset_eq, offsets, rotateLeft_not, ←
      BitVec.not_xor_right]
  have h3 : (w.reg r11 ^^^ w.reg rcx).rotateLeft 45 = shuffled A 3 1 := by
    simp [h.r11_eq, h.rcx_eq, hs 3, flipped, flip, rhoOffset_eq, offsets]
  have h4 : (w.reg r12 ^^^ w.reg rdx).rotateLeft 61 = shuffled A 4 1 := by
    simp [h.r12_eq, h.rdx_eq, hs 4, flipped, flip, rhoOffset_eq, offsets]
  refine ⟨⟨⟨?_, ?_, ?_, ?_, ?_⟩, ?_, ?_, ?_, ?_, ?_⟩, ?_, ?_⟩
  iterate 10 simp [plane1, h.rax_eq, h.rbx_eq, h.rcx_eq, h.rdx_eq, h.rbp_eq]
  · intro x hx
    interval_cases x <;>
    · simp [plane1, h0, h1, h2, h3, h4, flip, chiLane]
      apply BitVec.eq_of_getLsbD_eq
      intro k hk
      simp [hk]
      grind
  · intro i hi
    have hne : ∀ k, k / 5 = 1 → i ≠ k := fun k hk e => hi (e ▸ hk)
    simp [plane1, hne]

theorem plane2_spec {A : Lanes} {w : Core (ℕ → U64)} (h : Loaded A 2 w) :
    Loaded A 3 (execAll (port A) w plane2)
      ∧ Stored 2 (chiLane A 2) w.mem (execAll (port A) w plane2).mem := by
  have hs := fun x hx => shuffled_eq A x 2 hx (by omega)
  have h0 : (w.reg r8 ^^^ w.reg rcx).rotateLeft 1 = ~~~shuffled A 0 2 := by
    simp [h.r8_eq, h.rcx_eq, hs 0, flipped, flip, rhoOffset_eq, offsets, rotateLeft_not, ←
      BitVec.not_xor_left]
  have h1 : (w.reg r9 ^^^ w.reg rdx).rotateLeft 6 = shuffled A 1 2 := by
    simp [h.r9_eq, h.rdx_eq, hs 1, flipped, flip, rhoOffset_eq, offsets]
  have h2 : (w.reg r10 ^^^ w.reg rbp).rotateLeft 25 = ~~~shuffled A 2 2 := by
    simp [h.r10_eq, h.rbp_eq, hs 2, flipped, flip, rhoOffset_eq, offsets, rotateLeft_not, ←
      BitVec.not_xor_right]
  have h3 : (w.reg r11 ^^^ w.reg rax).rotateLeft 8 = shuffled A 3 2 := by
    simp [h.r11_eq, h.rax_eq, hs 3, flipped, flip, rhoOffset_eq, offsets]
  have h4 : (w.reg r12 ^^^ w.reg rbx).rotateLeft 18 = shuffled A 4 2 := by
    simp [h.r12_eq, h.rbx_eq, hs 4, flipped, flip, rhoOffset_eq, offsets, ← BitVec.not_xor_left, ←
      BitVec.not_xor_right]
  refine ⟨⟨⟨?_, ?_, ?_, ?_, ?_⟩, ?_, ?_, ?_, ?_, ?_⟩, ?_, ?_⟩
  iterate 10 simp [plane2, h.rax_eq, h.rbx_eq, h.rcx_eq, h.rdx_eq, h.rbp_eq]
  · intro x hx
    interval_cases x <;>
    · simp [plane2, h0, h1, h2, h3, h4, flip, chiLane]
      apply BitVec.eq_of_getLsbD_eq
      intro k hk
      simp [hk]
      grind
  · intro i hi
    have hne : ∀ k, k / 5 = 2 → i ≠ k := fun k hk e => hi (e ▸ hk)
    simp [plane2, hne]

theorem plane3_spec {A : Lanes} {w : Core (ℕ → U64)} (h : Loaded A 3 w) :
    Columns A (execAll (port A) w plane3)
      ∧ Stored 3 (chiLane A 3) w.mem (execAll (port A) w plane3).mem := by
  have hs := fun x hx => shuffled_eq A x 3 hx (by omega)
  have h0 : (w.reg r8 ^^^ w.reg rax).rotateLeft 27 = shuffled A 0 3 := by
    simp [h.r8_eq, h.rax_eq, hs 0, flipped, flip, rhoOffset_eq, offsets]
  have h1 : (w.reg r9 ^^^ w.reg rbx).rotateLeft 36 = ~~~shuffled A 1 3 := by
    simp [h.r9_eq, h.rbx_eq, hs 1, flipped, flip, rhoOffset_eq, offsets, rotateLeft_not, ←
      BitVec.not_xor_right]
  have h2 : (w.reg r10 ^^^ w.reg rcx).rotateLeft 10 = shuffled A 2 3 := by
    simp [h.r10_eq, h.rcx_eq, hs 2, flipped, flip, rhoOffset_eq, offsets]
  have h3 : (w.reg r11 ^^^ w.reg rdx).rotateLeft 15 = ~~~shuffled A 3 3 := by
    simp [h.r11_eq, h.rdx_eq, hs 3, flipped, flip, rhoOffset_eq, offsets, rotateLeft_not, ←
      BitVec.not_xor_left]
  have h4 : (w.reg r12 ^^^ w.reg rbp).rotateLeft 56 = ~~~shuffled A 4 3 := by
    simp [h.r12_eq, h.rbp_eq, hs 4, flipped, flip, rhoOffset_eq, offsets, rotateLeft_not, ←
      BitVec.not_xor_right]
  refine ⟨⟨?_, ?_, ?_, ?_, ?_⟩, ?_, ?_⟩
  iterate 5 simp [plane3, h.rax_eq, h.rbx_eq, h.rcx_eq, h.rdx_eq, h.rbp_eq]
  · intro x hx
    interval_cases x <;>
    · simp [plane3, h0, h1, h2, h3, h4, flip, chiLane]
      apply BitVec.eq_of_getLsbD_eq
      intro k hk
      simp [hk]
      grind
  · intro i hi
    have hne : ∀ k, k / 5 = 3 → i ≠ k := fun k hk e => hi (e ▸ hk)
    simp [plane3, hne]

theorem row4_spec {A : Lanes} {w : Core (ℕ → U64)} (h : Columns A w) :
    LastPlane A (execAll (port A) w row4) ∧ (execAll (port A) w row4).mem = w.mem := by
  have hs : ∀ x < 5, shuffled A x 4 = (mix A ((x + 3 * 4) % 5)
      ^^^ lane A ((x + 3 * 4) % 5) x).rotateLeft (Keccak.rhoOffset ((x + 3 * 4) % 5) x) := by
    intro x hx
    rw [shuffled_eq A x 4 hx (by omega), BitVec.xor_comm]
  refine ⟨⟨?_, ?_, ?_, ?_, ?_⟩, ?_⟩ <;>
    simp [row4, h.rax_eq, h.rbx_eq, h.rcx_eq, h.rdx_eq, h.rbp_eq, hs, flipped, flip, rhoOffset_eq,
      offsets, rotateLeft_not, ← BitVec.not_xor_left, ← BitVec.not_xor_right]

theorem plane4_spec {A : Lanes} {w : Core (ℕ → U64)} (h : LastPlane A w) :
    LastRow (execAll (port A) w plane4).mem (execAll (port A) w plane4)
      ∧ Stored 4 (chiLane A 4) w.mem (execAll (port A) w plane4).mem := by
  refine ⟨⟨?_, ?_, ?_, ?_, ?_⟩, ?_, ?_⟩
  iterate 5 simp [plane4]
  · intro x hx
    interval_cases x <;>
    · simp [plane4, h.rax_eq, h.rbx_eq, h.rcx_eq, h.rdx_eq, h.rbp_eq, flip, chiLane]
      apply BitVec.eq_of_getLsbD_eq
      intro k hk
      simp [hk]
      grind
  · intro i hi
    have hne : ∀ k, k / 5 = 4 → i ≠ k := fun k hk e => hi (e ▸ hk)
    simp [plane4, hne]

/-! ### The round -/

theorem lane_round (A : Lanes) (ir x y : ℕ) (hx : x < 5) (hy : y < 5) :
    lane (Keccak.round A ir) x y
      = if x = 0 ∧ y = 0 then chiLane A 0 0 ^^^ Keccak.roundConstant ir else chiLane A y x := by
  have hchi : ∀ x y, x < 5 → y < 5 →
      lane (Keccak.chi (Keccak.pi (Keccak.rho (Keccak.theta A)))) x y = chiLane A y x := by
    intro x y hx hy
    rw [Keccak.chi, Keccak.lane_ofLanes, Nat.mod_eq_of_lt hx, Nat.mod_eq_of_lt hy, chiLane,
      shuffled,
      shuffled, shuffled]
    simp only [lane, Nat.mod_mod]
  by_cases h0 : x = 0 ∧ y = 0
  · obtain ⟨rfl, rfl⟩ := h0
    rw [if_pos ⟨rfl, rfl⟩, ← hchi 0 0 hx hy]
    simp [Keccak.round, Keccak.iota, lane]
  · rw [if_neg h0, ← hchi x y hx hy]
    simp only [Keccak.round, Keccak.iota, lane]
    rw [Vector.getElem_set_ne _ _ (by omega)]

theorem Stored.get {y i : ℕ} {plane dst dst' : ℕ → U64} (h : Stored y plane dst dst')
    (hi : i / 5 = y) : dst' i = flip i (plane (i % 5)) := by
  have hown := h.own (i % 5) (Nat.mod_lt _ (by omega))
  rwa [← hi, Nat.mod_add_div] at hown

/-- The five planes together are the next state. -/
theorem stored_round {A : Lanes} {ir : ℕ} {d₀ d₁ d₂ d₃ d₄ d₅ : ℕ → U64}
    (h₀ : Stored 0 (fun x => if x = 0 then chiLane A 0 0 ^^^ Keccak.roundConstant ir
      else chiLane A 0 x) d₀ d₁)
    (h₁ : Stored 1 (chiLane A 1) d₁ d₂) (h₂ : Stored 2 (chiLane A 2) d₂ d₃)
    (h₃ : Stored 3 (chiLane A 3) d₃ d₄) (h₄ : Stored 4 (chiLane A 4) d₄ d₅) (i : ℕ) (hi : i < 25) :
    d₅ i = flipped (Keccak.round A ir) i := by
  rw [flipped, lane_round A ir _ _ (Nat.mod_lt _ (by omega)) (by omega)]
  -- the plane of the lane is written once, and later pieces leave it
  have hcases : i / 5 = 0 ∨ i / 5 = 1 ∨ i / 5 = 2 ∨ i / 5 = 3 ∨ i / 5 = 4 := by omega
  rcases hcases with h | h | h | h | h
  · rw [h₄.rest i (by omega), h₃.rest i (by omega), h₂.rest i (by omega), h₁.rest i (by omega),
      h₀.get h]
    simp [h]
  · rw [h₄.rest i (by omega), h₃.rest i (by omega), h₂.rest i (by omega), h₁.get h]
    simp [h]
  · rw [h₄.rest i (by omega), h₃.rest i (by omega), h₂.get h]
    simp [h]
  · rw [h₄.rest i (by omega), h₃.get h]
    simp [h]
  · rw [h₄.get h]
    simp [h]

end KeccakAsm
