/-
A machine for x86-64 assembly.

The part of the instruction set that unrolled integer code with a loop and a call
uses, in the operand order of the assembler (source first).  Memory is a function
from addresses to bytes; only the zero flag is kept, the one flag that such code
reads.  The code of a program is not part of the memory.

* `Op.exec` — an instruction that goes on to the next one, over any memory that a
  `Port` gives access to;
* `Layout.step`, `Layout.Reaches` — a program placed in the address space, with its
  jumps, calls and returns;
* `Layout.reaches_ops` — a straight block of a program runs to its end;
* `load_store_self`, `load_store_apart` — words in a memory of bytes.
-/
import VelkarMiner.Words

open Bytes

namespace X86

inductive Reg
  | rax | rbx | rcx | rdx | rsi | rdi | rbp | rsp
  | r8 | r9 | r10 | r11 | r12 | r13 | r14 | r15
deriving DecidableEq

/-- A register, or the word at `disp(base)`. -/
inductive Operand
  | reg (r : Reg)
  | mem (disp : ℤ) (base : Reg)
deriving DecidableEq

instance : Coe Reg Operand := ⟨.reg⟩

/-- Instructions that go on to the next one, on 64-bit operands. -/
inductive Op
  | mov (src dst : Operand)
  | xor (src dst : Operand)
  | or (src dst : Operand)
  | and (src dst : Operand)
  | not (dst : Operand)
  | rol (count : ℕ) (dst : Operand)
  | sub (imm : ℤ) (dst : Operand)
  | test (imm : ℤ) (dst : Operand)
  | lea (disp : ℤ) (base dst : Reg)
  | xchg (r r' : Reg)
  | push (r : Reg)
  | endbr64

/-! ### Instructions over any memory -/

/-- Registers, the zero flag and a memory. -/
structure Core (μ : Type) where
  reg : Reg → U64
  zf : Bool
  mem : μ

/-- How the word at `disp(base)` of a memory is read and written. -/
structure Port (μ : Type) where
  read : (Reg → U64) → μ → ℤ → Reg → U64
  write : (Reg → U64) → μ → ℤ → Reg → U64 → μ

def setReg (reg : Reg → U64) (r : Reg) (x : U64) : Reg → U64 := fun q => if q = r then x else reg q

@[simp] theorem setReg_apply (reg : Reg → U64) (r q : Reg) (x : U64) :
    setReg reg r x q = if q = r then x else reg q :=
  rfl

theorem setReg_ne {reg : Reg → U64} {r q : Reg} {x : U64} (h : q ≠ r) : setReg reg r x q = reg q :=
  if_neg h

section
variable {μ : Type} (port : Port μ)

def Operand.read (c : Core μ) : Operand → U64
  | reg r => c.reg r
  | mem disp base => port.read c.reg c.mem disp base

def Operand.write (c : Core μ) (x : U64) : Operand → Core μ
  | reg r => { c with reg := setReg c.reg r x }
  | mem disp base => { c with mem := port.write c.reg c.mem disp base x }

/-- The result of a logical instruction, which sets the zero flag. -/
def Operand.writeFlag (c : Core μ) (x : U64) (dst : Operand) : Core μ :=
  { dst.write port c x with zf := x == 0 }

def Op.exec (c : Core μ) : Op → Core μ
  | mov src dst => dst.write port c (src.read port c)
  | xor src dst => dst.writeFlag port c (dst.read port c ^^^ src.read port c)
  | or src dst => dst.writeFlag port c (dst.read port c ||| src.read port c)
  | and src dst => dst.writeFlag port c (dst.read port c &&& src.read port c)
  | not dst => dst.write port c (~~~ dst.read port c)
  | rol count dst => dst.write port c ((dst.read port c).rotateLeft count)
  | sub imm dst => dst.writeFlag port c (dst.read port c - BitVec.ofInt 64 imm)
  | test imm dst => { c with zf := (dst.read port c &&& BitVec.ofInt 64 imm) == 0 }
  | lea disp base dst => { c with reg := setReg c.reg dst (c.reg base + BitVec.ofInt 64 disp) }
  | xchg r r' => { c with reg := setReg (setReg c.reg r (c.reg r')) r' (c.reg r) }
  | push r =>
    { c with
      reg := setReg c.reg .rsp (c.reg .rsp - 8)
      mem := port.write c.reg c.mem (-8) .rsp (c.reg r) }
  | endbr64 => c

def execAll (c : Core μ) (ops : List Op) : Core μ := ops.foldl (Op.exec port) c

@[simp] theorem execAll_nil (c : Core μ) : execAll port c [] = c := rfl

@[simp] theorem execAll_cons (c : Core μ) (o : Op) (ops : List Op) :
    execAll port c (o :: ops) = execAll port (o.exec port c) ops := rfl

theorem execAll_append (c : Core μ) (ops ops' : List Op) :
    execAll port c (ops ++ ops') = execAll port (execAll port c ops) ops' :=
  List.foldl_append

end

/-! ### Registers that a block leaves alone -/

def Operand.targets : Operand → List Reg
  | reg r => [r]
  | mem _ _ => []

/-- The registers an instruction writes. -/
def Op.targets : Op → List Reg
  | mov _ dst | xor _ dst | or _ dst | and _ dst | not dst | rol _ dst | sub _ dst => dst.targets
  | test _ _ | endbr64 => []
  | lea _ _ dst => [dst]
  | xchg r r' => [r, r']
  | push _ => [.rsp]

theorem Op.reg_exec {μ : Type} (port : Port μ) (c : Core μ) {o : Op} {r : Reg}
    (h : r ∉ o.targets) : (o.exec port c).reg r = c.reg r := by
  have hwrite : ∀ (dst : Operand) (x : U64), r ∉ dst.targets →
      (dst.write port c x).reg r = c.reg r := by
    intro dst x hdst
    cases dst with
    | reg q => exact setReg_ne (by simpa [Operand.targets] using hdst)
    | mem d b => rfl
  cases o with
  | mov src dst | xor src dst | or src dst | and src dst => exact hwrite dst _ h
  | not dst | rol n dst | sub n dst => exact hwrite dst _ h
  | test n dst | endbr64 => rfl
  | lea d b dst => exact setReg_ne (by simpa [targets] using h)
  | xchg q q' =>
    simp only [targets, List.mem_cons, List.not_mem_nil, or_false, not_or] at h
    exact (setReg_ne h.2).trans (setReg_ne h.1)
  | push q => exact setReg_ne (by simpa [targets] using h)

theorem reg_execAll {μ : Type} (port : Port μ) (ops : List Op) {r : Reg} (c : Core μ)
    (h : ∀ o ∈ ops, r ∉ o.targets) : (execAll port c ops).reg r = c.reg r := by
  induction ops generalizing c with
  | nil => rfl
  | cons o ops ih =>
    rw [execAll_cons, ih _ fun o' ho' => h o' (by simp [ho']), Op.reg_exec port c (h o (by simp))]

/-! ### Memory as bytes -/

abbrev Mem := U64 → Byte

/-- The little-endian word at an address; addresses wrap around. -/
def load (m : Mem) (a : U64) : U64 := ofLe 8 fun k => m (a + BitVec.ofNat 64 k)

def store (m : Mem) (a x : U64) : Mem := fun b =>
  if (b - a).toNat < 8 then leByte x (b - a).toNat else m b

/-- The memory of the processor. -/
def bytePort : Port Mem where
  read reg m disp base := load m (reg base + BitVec.ofInt 64 disp)
  write reg m disp base x := store m (reg base + BitVec.ofInt 64 disp) x

/-- No byte is both among the `n` bytes at `p` and among the `k` bytes at `q`. -/
def Apart (p : U64) (n : ℕ) (q : U64) (k : ℕ) : Prop :=
  ∀ i < n, ∀ j < k, p + BitVec.ofNat 64 i ≠ q + BitVec.ofNat 64 j

/-- The address is not among the `n` bytes at `p`. -/
def Outside (a p : U64) (n : ℕ) : Prop := ∀ i < n, a ≠ p + BitVec.ofNat 64 i

theorem Apart.symm {p q : U64} {n k : ℕ} (h : Apart p n q k) : Apart q k p n :=
  fun j hj i hi e => h i hi j hj e.symm

/-- Parts of areas that are apart are apart. -/
theorem Apart.part {p q : U64} {n k : ℕ} (h : Apart p n q k) (i n' j k' : ℕ) (hi : i + n' ≤ n)
    (hj : j + k' ≤ k) : Apart (p + BitVec.ofNat 64 i) n' (q + BitVec.ofNat 64 j) k' := by
  intro a ha b hb
  rw [BitVec.add_assoc, BitVec.add_assoc, ← BitVec.ofNat_add, ← BitVec.ofNat_add]
  exact h (i + a) (by omega) (j + b) (by omega)

theorem Apart.outside {p q : U64} {n k i : ℕ} (h : Apart p n q k) (hi : i < n) :
    Outside (p + BitVec.ofNat 64 i) q k :=
  fun j hj => h i hi j hj

theorem Outside.part {a p : U64} {n n' i : ℕ} (h : Outside a p n) (hi : i + n' ≤ n) :
    Outside a (p + BitVec.ofNat 64 i) n' := by
  intro j hj
  rw [BitVec.add_assoc, ← BitVec.ofNat_add]
  exact h (i + j) (by omega)

/-- Disjoint parts of one area are apart. -/
theorem apart_of_lt {p : U64} {i j n k : ℕ} (hij : i + n ≤ j) (hj : j + k ≤ 2 ^ 64) :
    Apart (p + BitVec.ofNat 64 i) n (p + BitVec.ofNat 64 j) k := by
  intro a ha b hb e
  rw [BitVec.add_assoc, BitVec.add_assoc, ← BitVec.ofNat_add, ← BitVec.ofNat_add,
    BitVec.add_right_inj] at e
  have h := congrArg BitVec.toNat e
  rw [BitVec.toNat_ofNat, BitVec.toNat_ofNat, Nat.mod_eq_of_lt (by omega),
    Nat.mod_eq_of_lt (by omega)] at h
  omega

/-- Areas that do not wrap around and follow one another are apart. -/
theorem apart_of_toNat {p q : U64} {n k : ℕ} (hpq : p.toNat + n ≤ q.toNat)
    (hq : q.toNat + k ≤ 2 ^ 64) : Apart p n q k := by
  intro i hi j hj e
  have h := congrArg BitVec.toNat e
  rw [BitVec.toNat_add, BitVec.toNat_add, BitVec.toNat_ofNat, BitVec.toNat_ofNat,
    Nat.mod_eq_of_lt (show i < 2 ^ 64 by omega), Nat.mod_eq_of_lt (show j < 2 ^ 64 by omega),
    Nat.mod_eq_of_lt (by omega), Nat.mod_eq_of_lt (by omega)] at h
  omega

theorem store_of_outside {m : Mem} {a b x : U64} (h : Outside b a 8) : store m a x b = m b := by
  rw [store, if_neg]
  intro hlt
  refine h (b - a).toNat hlt ?_
  rw [BitVec.ofNat_toNat, BitVec.setWidth_eq, BitVec.add_comm, BitVec.sub_add_cancel]

theorem load_store_self (m : Mem) (a x : U64) : load (store m a x) a = x := by
  rw [load, ← ofLe_leByte (n := 8) x (by omega)]
  refine ofLe_congr fun k hk => ?_
  have hoff : (a + BitVec.ofNat 64 k - a).toNat = k := by
    rw [BitVec.add_comm, BitVec.add_sub_cancel, BitVec.toNat_ofNat, Nat.mod_eq_of_lt (by omega)]
  rw [store, hoff, if_pos hk, ofLe_leByte _ (by omega)]

theorem load_congr {m m' : Mem} {a : U64}
    (h : ∀ k < 8, m (a + BitVec.ofNat 64 k) = m' (a + BitVec.ofNat 64 k)) :
    load m a = load m' a :=
  ofLe_congr h

theorem load_store_apart {m : Mem} {a b x : U64} (h : Apart b 8 a 8) :
    load (store m a x) b = load m b :=
  load_congr fun _ hk => store_of_outside (h.outside hk)

/-- Word `i` of the array of words at `p`. -/
def wordAt (m : Mem) (p : U64) (i : ℕ) : U64 := load m (p + BitVec.ofNat 64 (8 * i))

theorem wordAt_store {m : Mem} {p x : U64} {n i j : ℕ} (hi : i < n) (hj : j < n)
    (hn : 8 * n ≤ 2 ^ 64) :
    wordAt (store m (p + BitVec.ofNat 64 (8 * j)) x) p i = if i = j then x else wordAt m p i := by
  rcases Nat.lt_trichotomy i j with h | rfl | h
  · rw [if_neg (by omega)]
    exact load_store_apart (apart_of_lt (by omega) (by omega))
  · rw [if_pos rfl]
    exact load_store_self _ _ _
  · rw [if_neg (by omega)]
    exact load_store_apart (apart_of_lt (by omega) (by omega)).symm

theorem wordAt_congr {m m' : Mem} {p : U64} {n i : ℕ} (hi : i < n)
    (h : ∀ k < 8 * n, m (p + BitVec.ofNat 64 k) = m' (p + BitVec.ofNat 64 k)) :
    wordAt m p i = wordAt m' p i := by
  refine load_congr fun k hk => ?_
  rw [BitVec.add_assoc, ← BitVec.ofNat_add]
  exact h _ (by omega)

theorem wordAt_store_apart {m : Mem} {p q x : U64} {n i : ℕ} (hi : i < n)
    (h : Apart p (8 * n) q 8) : wordAt (store m q x) p i = wordAt m p i :=
  wordAt_congr hi fun _ hk => store_of_outside (h.outside hk)

/-! ### Arrays behind a pointer -/

/-- The word at displacement `d` from a register that points `off` bytes into an array. -/
def slot (off d : ℤ) : ℕ := ((d + off) / 8).toNat

/-- The displacement of a word of an array of `n` words. -/
def IsSlot (off : ℤ) (n : ℕ) (d : ℤ) : Prop := 0 ≤ d + off ∧ d + off < 8 * n ∧ (8 : ℤ) ∣ d + off

instance (off : ℤ) (n : ℕ) (d : ℤ) : Decidable (IsSlot off n d) := by
  unfold IsSlot
  infer_instance

/-- The address of a word, from the register that points into its array. -/
theorem address_eq {off d : ℤ} {n : ℕ} {p : U64} (hd : IsSlot off n d) :
    p + BitVec.ofInt 64 off + BitVec.ofInt 64 d = p + BitVec.ofNat 64 (8 * slot off d)
      ∧ slot off d < n := by
  obtain ⟨h0, hlt, k, hk⟩ := hd
  have hslot : ((8 * slot off d : ℕ) : ℤ) = off + d := by
    rw [slot]
    omega
  refine ⟨?_, by omega⟩
  rw [BitVec.add_assoc, ← BitVec.ofInt_add, ← hslot, BitVec.ofInt_natCast]

/-! ### Saving registers, complementing words -/

/-- Registers pushed from the first to the last lie in memory from the last to the first. -/
theorem push_all (rs : List Reg) (hrs : Reg.rsp ∉ rs) {c : Core Mem} {b : U64}
    (hb : c.reg .rsp = b + BitVec.ofNat 64 (8 * rs.length)) (hlen : 8 * rs.length ≤ 2 ^ 64) :
    (execAll bytePort c (rs.map .push)).reg = setReg c.reg .rsp b
      ∧ (∀ i r, rs.reverse[i]? = some r →
          wordAt (execAll bytePort c (rs.map .push)).mem b i = c.reg r)
      ∧ ∀ a, Outside a b (8 * rs.length) →
          (execAll bytePort c (rs.map .push)).mem a = c.mem a := by
  induction rs generalizing c with
  | nil =>
    refine ⟨?_, by simp, fun _ _ => rfl⟩
    funext r
    by_cases hr : r = .rsp
    · subst hr
      simpa using hb
    · exact (setReg_ne hr).symm
  | cons r rs ih =>
    simp only [List.mem_cons, not_or] at hrs
    simp only [List.length_cons] at hb hlen ⊢
    have htop : c.reg .rsp - 8 = b + BitVec.ofNat 64 (8 * rs.length) := by
      rw [hb, Nat.mul_succ, BitVec.ofNat_add, ← BitVec.add_assoc]
      exact BitVec.add_sub_cancel _ _
    set c₁ : Core Mem := (Op.push r).exec bytePort c with hc₁
    have hmem : c₁.mem = store c.mem (b + BitVec.ofNat 64 (8 * rs.length)) (c.reg r) := by
      rw [← htop, BitVec.sub_eq_add_neg]
      rfl
    have hreg : ∀ q, q ≠ .rsp → c₁.reg q = c.reg q := fun q hq => setReg_ne hq
    obtain ⟨hreg', hword, hframe⟩ := ih hrs.2 (c := c₁) htop (by omega)
    have hrun : execAll bytePort c ((r :: rs).map .push) = execAll bytePort c₁ (rs.map .push) := rfl
    rw [hrun]
    refine ⟨?_, ?_, ?_⟩
    · rw [hreg']
      funext q
      by_cases hq : q = .rsp
      · simp [hq]
      · simp [hq, hreg q hq]
    · intro i q hq
      rw [List.reverse_cons] at hq
      by_cases hlast : i < rs.reverse.length
      · rw [List.getElem?_append_left hlast] at hq
        have hne : q ≠ .rsp := by
          rintro rfl
          exact hrs.2 (List.mem_reverse.mp (List.mem_of_getElem? hq))
        rw [hword i q hq, hreg q hne]
      · rw [List.getElem?_append_right (by omega), List.getElem?_singleton] at hq
        obtain ⟨hi, rfl⟩ : i - rs.reverse.length = 0 ∧ r = q := by
          simpa using hq
        obtain rfl : i = rs.length := by
          rw [List.length_reverse] at hi hlast
          omega
        rw [← load_store_self c.mem (b + BitVec.ofNat 64 (8 * rs.length)) (c.reg r), ← hmem]
        -- the later pushes are below
        refine load_congr fun k hk => hframe _ ?_
        have hapart := (apart_of_lt (p := b) (i := 0) (n := 8 * rs.length) (j := 8 * rs.length)
          (k := 8) (by omega) (by omega)).symm.outside hk
        rwa [BitVec.add_zero] at hapart
    · intro a ha
      have hlow : Outside a b (8 * rs.length) := fun i hi => ha i (by omega)
      rw [hframe a hlow, hmem, store_of_outside (ha.part (by omega))]

/-- The words at some displacements of an array are complemented in place. -/
theorem not_all (off : ℤ) (n : ℕ) {r : Reg} {p : U64} (hn : 8 * n ≤ 2 ^ 64) {ds : List ℤ}
    (hds : ∀ d ∈ ds, IsSlot off n d) (hnodup : (ds.map (slot off)).Nodup) {c : Core Mem}
    (hp : c.reg r = p + BitVec.ofInt 64 off) :
    (execAll bytePort c (ds.map fun d => .not (.mem d r))).reg = c.reg
      ∧ (∀ i < n, wordAt (execAll bytePort c (ds.map fun d => .not (.mem d r))).mem p i
          = if i ∈ ds.map (slot off) then ~~~wordAt c.mem p i else wordAt c.mem p i)
      ∧ ∀ a, Outside a p (8 * n) →
          (execAll bytePort c (ds.map fun d => .not (.mem d r))).mem a = c.mem a := by
  induction ds generalizing c with
  | nil => exact ⟨rfl, fun i _ => by simp, fun _ _ => rfl⟩
  | cons d ds ih =>
    obtain ⟨haddr, hslot⟩ := address_eq (p := p) (hds d (by simp))
    rw [List.map_cons, List.nodup_cons] at hnodup
    set c₁ : Core Mem := (Op.not (.mem d r)).exec bytePort c with hc₁
    have hmem : c₁.mem = store c.mem (p + BitVec.ofNat 64 (8 * slot off d))
        (~~~wordAt c.mem p (slot off d)) := by
      show store c.mem (c.reg r + BitVec.ofInt 64 d)
        (~~~load c.mem (c.reg r + BitVec.ofInt 64 d)) = _
      rw [hp, haddr]
      rfl
    obtain ⟨hreg, hword, hframe⟩ := ih (fun d' hd' => hds d' (by simp [hd'])) hnodup.2 (c := c₁) hp
    have hrun : execAll bytePort c ((d :: ds).map fun d => .not (.mem d r))
        = execAll bytePort c₁ (ds.map fun d => .not (.mem d r)) := rfl
    rw [hrun]
    refine ⟨hreg, ?_, ?_⟩
    · intro i hi
      rw [hword i hi, hmem, wordAt_store hi hslot hn]
      by_cases h : i = slot off d
      · rw [if_pos h, ← h, if_neg (h ▸ hnodup.1), if_pos (by simp [h])]
      · simp [h]
    · intro a ha
      rw [hframe a ha, hmem, store_of_outside (ha.part (by omega))]

/-! ### Programs -/

/-- Instructions, with labels `ℓ` in the code and `δ` in the data. -/
inductive Instr (ℓ δ : Type)
  | op (o : Op)
  | leaRip (d : δ) (dst : Reg)
  | jmp (l : ℓ)
  | jnz (l : ℓ)
  | call (l : ℓ)
  | ret

/-- Labelled blocks, one after the other. -/
abbrev Program (ℓ δ : Type) := List (ℓ × List (Instr ℓ δ))

structure State extends Core Mem where
  rip : U64

section
variable {ℓ δ : Type} [DecidableEq ℓ]

def Program.instrs (P : Program ℓ δ) : List (Instr ℓ δ) := P.flatMap Prod.snd

/-- The number of the first instruction of a block. -/
def Program.start (P : Program ℓ δ) (l : ℓ) : ℕ :=
  (Program.instrs (P.takeWhile fun b => b.1 ≠ l)).length

/-- The code from a label on. -/
theorem Program.drop_start (pre : Program ℓ δ) {P post : Program ℓ δ} {l : ℓ}
    {block : List (Instr ℓ δ)}
    (hP : P = pre ++ (l, block) :: post) (h : ∀ b ∈ pre, b.1 ≠ l) :
    P.instrs.drop (P.start l) = block ++ Program.instrs post := by
  subst hP
  have htake : (pre ++ (l, block) :: post).takeWhile (fun b => b.1 ≠ l) = pre := by
    rw [List.takeWhile_append_of_pos (by simpa using h), List.takeWhile_cons_of_neg (by simp),
      List.append_nil]
  rw [Program.start, htake, Program.instrs, Program.instrs, List.flatMap_append]
  exact List.drop_left

/-- Where the instructions and the data of a program lie. -/
structure Layout (P : Program ℓ δ) where
  addr : ℕ → U64
  addr_inj : ∀ i < P.instrs.length, ∀ j < P.instrs.length, addr i = addr j → i = j
  data : δ → U64

namespace Layout
variable {P : Program ℓ δ} (L : Layout P)

/-- The number of the instruction at an address. -/
def index (a : U64) : Option ℕ := (List.range P.instrs.length).find? fun i => L.addr i == a

/-- What instruction number `i` does. -/
def next (i : ℕ) (s : State) : Instr ℓ δ → State
  | .op o => ⟨o.exec bytePort s.toCore, L.addr (i + 1)⟩
  | .leaRip d dst => ⟨{ s.toCore with reg := setReg s.reg dst (L.data d) }, L.addr (i + 1)⟩
  | .jmp l => ⟨s.toCore, L.addr (P.start l)⟩
  | .jnz l => ⟨s.toCore, if s.zf then L.addr (i + 1) else L.addr (P.start l)⟩
  | .call l =>
    ⟨{ s.toCore with
        reg := setReg s.reg .rsp (s.reg .rsp - 8)
        mem := store s.mem (s.reg .rsp - 8) (L.addr (i + 1)) }, L.addr (P.start l)⟩
  | .ret =>
    ⟨{ s.toCore with reg := setReg s.reg .rsp (s.reg .rsp + 8) }, load s.mem (s.reg .rsp)⟩

/-- One instruction; none when the address is not one of the program. -/
def step (s : State) : Option State :=
  (L.index s.rip).bind fun i => P.instrs[i]?.map (L.next i s)

def Reaches : State → State → Prop := Relation.ReflTransGen fun s t => L.step s = some t

omit [DecidableEq ℓ] in
theorem index_addr {i : ℕ} (hi : i < P.instrs.length) : L.index (L.addr i) = some i := by
  rw [index, List.find?_eq_some_iff_getElem]
  refine ⟨by simp, i, by simpa using hi, by simp, ?_⟩
  intro j hj
  rw [List.getElem_range, Bool.not_eq_true', beq_eq_false_iff_ne]
  intro e
  exact absurd (L.addr_inj j (by omega) i hi e) (by omega)

theorem step_of_getElem {i : ℕ} {I : Instr ℓ δ} {s : State} (hI : P.instrs[i]? = some I)
    (hs : s.rip = L.addr i) : L.step s = some (L.next i s I) := by
  have hi : i < P.instrs.length := (List.getElem?_eq_some_iff.mp hI).1
  rw [step, hs, L.index_addr hi, Option.bind_some, hI, Option.map_some]

theorem reaches_next {i : ℕ} {I : Instr ℓ δ} {s : State} (hI : P.instrs[i]? = some I)
    (hs : s.rip = L.addr i) : L.Reaches s (L.next i s I) :=
  .single (L.step_of_getElem hI hs)

theorem step_eq_none {s : State} (h : L.index s.rip = none) : L.step s = none := by
  rw [step, h, Option.bind_none]

/-- A run that has stopped is where every other run leads. -/
theorem reaches_stop {s t u : State} (ht : L.Reaches s t) (hstop : L.step t = none)
    (hu : L.Reaches s u) : L.Reaches u t := by
  induction hu with
  | refl => exact ht
  | tail _ hstep ih =>
    rcases Relation.ReflTransGen.cases_head ih with rfl | ⟨v, hv, hvt⟩
    · rw [hstop] at hstep
      exact absurd hstep (by simp)
    · rw [hstep] at hv
      obtain rfl := Option.some.inj hv
      exact hvt

/-- A straight block runs to its end. -/
theorem reaches_ops (ops : List Op) {i : ℕ} {c : Core Mem}
    (h : ops.map Instr.op <+: P.instrs.drop i) :
    L.Reaches ⟨c, L.addr i⟩ ⟨execAll bytePort c ops, L.addr (i + ops.length)⟩ := by
  induction ops generalizing i c with
  | nil => exact .refl
  | cons o ops ih =>
    obtain ⟨rest, hrest⟩ := h
    have hget : P.instrs[i]? = some (.op o) := by
      rw [← List.head?_drop, ← hrest]
      rfl
    have htail : ops.map Instr.op <+: P.instrs.drop (i + 1) := by
      refine ⟨rest, ?_⟩
      rw [← List.tail_drop, ← hrest]
      rfl
    rw [List.length_cons, ← Nat.add_assoc, Nat.add_right_comm]
    exact (L.reaches_next hget rfl).trans (ih htail)

end Layout

end

/-! ### Two windows

Code that reads one array through a register and writes another through a second
register can be followed with the two arrays in place of the memory. -/

/-- Words read from `src` and written to an array of their own. -/
def windowPort (off : ℤ) (src : ℕ → U64) : Port (ℕ → U64) where
  read _ _ d _ := src (slot off d)
  write _ dst d _ x := fun i => if i = slot off d then x else dst i

section
variable (off : ℤ) (n : ℕ) (rd wr : Reg)

def Operand.Readable : Operand → Prop
  | reg _ => True
  | mem d b => b = rd ∧ IsSlot off n d

def Operand.Writable : Operand → Prop
  | reg r => r ≠ rd ∧ r ≠ wr
  | mem d b => b = wr ∧ IsSlot off n d

/-- The instruction reads words through `rd`, writes words through `wr` and keeps both. -/
def Op.Within : Op → Prop
  | mov src dst => src.Readable off n rd ∧ dst.Writable off n rd wr
  | xor src dst | or src dst | and src dst =>
    src.Readable off n rd ∧ dst.Readable off n rd ∧ dst.Writable off n rd wr
  | not dst | rol _ dst | sub _ dst => dst.Readable off n rd ∧ dst.Writable off n rd wr
  | test _ dst => dst.Readable off n rd
  | lea _ _ dst => dst ≠ rd ∧ dst ≠ wr
  | xchg _ _ | push _ => False
  | endbr64 => True

instance : DecidablePred (Operand.Readable off n rd)
  | .reg _ => inferInstanceAs (Decidable True)
  | .mem d b => inferInstanceAs (Decidable (b = rd ∧ IsSlot off n d))

instance : DecidablePred (Operand.Writable off n rd wr)
  | .reg r => inferInstanceAs (Decidable (r ≠ rd ∧ r ≠ wr))
  | .mem d b => inferInstanceAs (Decidable (b = wr ∧ IsSlot off n d))

instance : DecidablePred (Op.Within off n rd wr) := fun o => by
  cases o <;> unfold Op.Within <;> infer_instance

end

/-- The memory holds `src` at `p` and the written array at `q`, and is otherwise `m₀`. -/
structure Windows (off : ℤ) (n : ℕ) (rd wr : Reg) (p q : U64) (src : ℕ → U64) (m₀ : Mem)
    (c : Core Mem) (w : Core (ℕ → U64)) : Prop where
  reg : c.reg = w.reg
  zf : c.zf = w.zf
  src_eq : ∀ i < n, wordAt c.mem p i = src i
  dst_eq : ∀ i < n, wordAt c.mem q i = w.mem i
  frame : ∀ a, Outside a q (8 * n) → c.mem a = m₀ a
  rd_eq : c.reg rd = p + BitVec.ofInt 64 off
  wr_eq : c.reg wr = q + BitVec.ofInt 64 off

namespace Windows
variable {off : ℤ} {n : ℕ} {rd wr : Reg} {p q : U64} {src : ℕ → U64} {m₀ : Mem} {c : Core Mem}
  {w : Core (ℕ → U64)}

theorem read_eq (h : Windows off n rd wr p q src m₀ c w) {x : Operand} (hx : x.Readable off n rd) :
    x.read bytePort c = x.read (windowPort off src) w := by
  cases x with
  | reg r => exact congrFun h.reg r
  | mem d b =>
    obtain ⟨rfl, hd⟩ := hx
    show load c.mem (c.reg b + BitVec.ofInt 64 d) = src (slot off d)
    rw [h.rd_eq, (address_eq hd).1]
    exact h.src_eq _ (address_eq (p := p) hd).2

/-- Registers other than the two pointers may change. -/
theorem setReg_of_ne (h : Windows off n rd wr p q src m₀ c w) {r : Reg} {x : U64} {z : Bool}
    (hr : r ≠ rd ∧ r ≠ wr) :
    Windows off n rd wr p q src m₀ ⟨setReg c.reg r x, z, c.mem⟩ ⟨setReg w.reg r x, z, w.mem⟩ where
  reg := by rw [h.reg]
  zf := rfl
  src_eq := h.src_eq
  dst_eq := h.dst_eq
  frame := h.frame
  rd_eq := (setReg_ne hr.1.symm).trans h.rd_eq
  wr_eq := (setReg_ne hr.2.symm).trans h.wr_eq

theorem setFlag (h : Windows off n rd wr p q src m₀ c w) (z : Bool) :
    Windows off n rd wr p q src m₀ { c with zf := z } { w with zf := z } :=
  { h with zf := rfl }

/-- The two pointers exchanged. -/
theorem xchg (h : Windows off n rd wr p q src m₀ c w) (hne : wr ≠ rd) :
    Windows off n wr rd p q src m₀ ((Op.xchg wr rd).exec bytePort c)
      ((Op.xchg wr rd).exec (windowPort off src) w) where
  reg := by simp only [Op.exec, h.reg]
  zf := h.zf
  src_eq := h.src_eq
  dst_eq := h.dst_eq
  frame := h.frame
  rd_eq := by rw [← h.rd_eq]; exact (setReg_ne hne).trans (if_pos rfl)
  wr_eq := by rw [← h.wr_eq]; exact if_pos rfl

/-- The windows of a state whose pointers are in place. -/
theorem start (hrd : c.reg rd = p + BitVec.ofInt 64 off) (hwr : c.reg wr = q + BitVec.ofInt 64 off)
    (hsrc : ∀ i < n, wordAt c.mem p i = src i) :
    Windows off n rd wr p q src c.mem c ⟨c.reg, c.zf, wordAt c.mem q⟩ where
  reg := rfl
  zf := rfl
  src_eq := hsrc
  dst_eq := fun _ _ => rfl
  frame := fun _ _ => rfl
  rd_eq := hrd
  wr_eq := hwr

variable (hpq : Apart p (8 * n) q (8 * n)) (hn : 8 * n ≤ 2 ^ 64)
include hpq hn

theorem write (h : Windows off n rd wr p q src m₀ c w) {x : Operand} {v : U64}
    (hx : x.Writable off n rd wr) :
    Windows off n rd wr p q src m₀ (x.write bytePort c v) (x.write (windowPort off src) w v) := by
  cases x with
  | reg r =>
    have hset := h.setReg_of_ne (x := v) (z := c.zf) hx
    show Windows off n rd wr p q src m₀ ⟨setReg c.reg r v, c.zf, c.mem⟩
      ⟨setReg w.reg r v, w.zf, w.mem⟩
    rwa [← h.zf]
  | mem d b =>
    obtain ⟨rfl, hd⟩ := hx
    obtain ⟨haddr, hslot⟩ := address_eq (p := q) hd
    have hmem : (Operand.write bytePort c v (.mem d b)).mem
        = store c.mem (q + BitVec.ofNat 64 (8 * slot off d)) v := by
      show store c.mem (c.reg b + BitVec.ofInt 64 d) v = _
      rw [h.wr_eq, haddr]
    refine ⟨h.reg, h.zf, ?_, ?_, ?_, h.rd_eq, h.wr_eq⟩
    · intro i hi
      rw [hmem, wordAt_store_apart (n := n) hi, h.src_eq i hi]
      have hpart := hpq.part 0 (8 * n) (8 * slot off d) 8 (by omega)
        (by omega)
      rwa [BitVec.add_zero] at hpart
    · intro i hi
      rw [hmem, wordAt_store hi hslot hn, h.dst_eq i hi]
      rfl
    · intro a ha
      rw [hmem, store_of_outside (ha.part (by omega)), h.frame a ha]

/-- An instruction within the windows does the same to both. -/
theorem exec (h : Windows off n rd wr p q src m₀ c w) {o : Op} (ho : o.Within off n rd wr) :
    Windows off n rd wr p q src m₀ (o.exec bytePort c) (o.exec (windowPort off src) w) := by
  have hlogic : ∀ {dst : Operand} {v : U64}, dst.Writable off n rd wr →
      Windows off n rd wr p q src m₀ (dst.writeFlag bytePort c v)
        (dst.writeFlag (windowPort off src) w v) :=
    fun hdst => (h.write hpq hn hdst).setFlag _
  cases o with
  | mov src dst =>
    rw [Op.exec, Op.exec, h.read_eq ho.1]
    exact h.write hpq hn ho.2
  | xor src dst | or src dst | and src dst =>
    rw [Op.exec, Op.exec, h.read_eq ho.1, h.read_eq ho.2.1]
    exact hlogic ho.2.2
  | not dst | rol count dst =>
    rw [Op.exec, Op.exec, h.read_eq ho.1]
    exact h.write hpq hn ho.2
  | sub imm dst =>
    rw [Op.exec, Op.exec, h.read_eq ho.1]
    exact hlogic ho.2
  | test imm dst =>
    rw [Op.exec, Op.exec, h.read_eq ho]
    exact h.setFlag _
  | lea d b dst =>
    have hset := h.setReg_of_ne (x := c.reg b + BitVec.ofInt 64 d) (z := c.zf) ho
    rw [h.zf, h.reg] at hset
    rwa [Op.exec, Op.exec, h.zf, h.reg]
  | xchg r r' => exact ho.elim
  | push r => exact ho.elim
  | endbr64 => exact h

theorem execAll (h : Windows off n rd wr p q src m₀ c w) (ops : List Op)
    (hops : ∀ o ∈ ops, o.Within off n rd wr) :
    Windows off n rd wr p q src m₀ (X86.execAll bytePort c ops)
      (X86.execAll (windowPort off src) w ops) := by
  induction ops generalizing c w with
  | nil => exact h
  | cons o ops ih =>
    exact ih (h.exec hpq hn (hops o (by simp))) fun o' ho' => hops o' (by simp [ho'])

end Windows

-- a straight block runs by simplification
attribute [simp] Op.exec Operand.read Operand.write Operand.writeFlag windowPort slot

end X86
