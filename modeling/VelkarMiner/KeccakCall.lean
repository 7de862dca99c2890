/-
The permutation in assembly, from the call to the return.

* `turn` — one turn of the loop takes the state from one array to the other, one
  round further;
* `turns` — the loop ends after 24 turns, when the low byte of the pointer to the
  constants is zero, and the state is back in the caller's array;
* `KeccakF1600_spec` — the call, with what it saves, restores and leaves alone;
* `KeccakF1600_returns` — every run from a call ends at the caller's address;
* `Crates.CallsAssembly` — what a build with the assembly (`src/pow/keccak.rs`) takes as `f1600`.
-/
import VelkarMiner.Hasher
import VelkarMiner.KeccakAssembly

open X86 X86.Reg
open Keccak (Lanes)
open Bytes (leByte)

namespace KeccakAsm

/-! ### One turn -/

/-- The words of a round, with every register of the code that is not one of its lanes. -/
structure Turning (A : Lanes) (p q consts sp : U64) (m₀ : Mem) (c : Core Mem) : Prop where
  lanes : ∀ i < 25, wordAt c.mem p i = flipped A i
  row : LastRow (flipped A) c
  rdi_eq : c.reg rdi = p + 100
  rsi_eq : c.reg rsi = q + 100
  r15_eq : c.reg r15 = consts
  rsp_eq : c.reg rsp = sp
  frame : ∀ a, Outside a p 200 → Outside a q 200 → c.mem a = m₀ a

/-- The pieces between the constant and the exchange. -/
def planeOps : List Op := plane0 ++ plane1 ++ plane2 ++ plane3 ++ row4

theorem loopOps_eq : loopOps = (thetaOps ++ row0) ++ (iotaOps ++ (planeOps ++ (.xchg rsi rdi
    :: (plane4 ++ [.test 255 r15])))) := by
  simp only [loopOps, planeOps, List.append_assoc, List.cons_append, List.nil_append]

/-- The words that the planes leave, from the first lane on. -/
theorem planes_spec {A : Lanes} {x₀ : U64} {w : Core (ℕ → U64)} (h : FirstLane A x₀ w) :
    LastPlane A (execAll (port A) w planeOps)
      ∧ ∃ d₁ d₂ d₃, Stored 0 (fun x => if x = 0 then x₀ else chiLane A 0 x) w.mem d₁
        ∧ Stored 1 (chiLane A 1) d₁ d₂ ∧ Stored 2 (chiLane A 2) d₂ d₃
        ∧ Stored 3 (chiLane A 3) d₃ (execAll (port A) w planeOps).mem := by
  obtain ⟨l₁, s₀⟩ := plane0_spec h
  obtain ⟨l₂, s₁⟩ := plane1_spec l₁
  obtain ⟨l₃, s₂⟩ := plane2_spec l₂
  obtain ⟨l₄, s₃⟩ := plane3_spec l₃
  obtain ⟨last, hmem⟩ := row4_spec l₄
  simp only [planeOps, execAll_append]
  refine ⟨last, _, _, _, s₀, s₁, s₂, ?_⟩
  rwa [hmem]

/-- The code on the memory and on its two arrays, side by side. -/
structure Follows (A : Lanes) (p q consts sp : U64) (m : Mem) (c : Core Mem)
    (w : Core (ℕ → U64)) : Prop where
  win : Windows 100 25 rdi rsi p q (flipped A) m c w
  r15_eq : w.reg r15 = consts
  rsp_eq : w.reg rsp = sp

theorem Follows.execAll {A : Lanes} {p q consts sp : U64} {m : Mem} {c : Core Mem}
    {w : Core (ℕ → U64)} (h : Follows A p q consts sp m c w) (hpq : Apart p 200 q 200)
    (ops : List Op)
    (hops : ∀ o ∈ ops, o.Within 100 25 rdi rsi ∧ r15 ∉ o.targets ∧ rsp ∉ o.targets) :
    Follows A p q consts sp m (X86.execAll bytePort c ops) (X86.execAll (port A) w ops) where
  win := h.win.execAll hpq (by omega) _ fun o ho => (hops o ho).1
  r15_eq := (reg_execAll _ _ w fun o ho => (hops o ho).2.1).trans h.r15_eq
  rsp_eq := (reg_execAll _ _ w fun o ho => (hops o ho).2.2).trans h.rsp_eq

/-- θ, and the first lane of plane 0 up to its constant. -/
theorem head_spec {A : Lanes} {p q consts sp : U64} {m₀ : Mem} {c : Core Mem}
    (hpq : Apart p 200 q 200) (h : Turning A p q consts sp m₀ c) :
    ∃ w, Follows A p q consts sp c.mem (execAll bytePort c (thetaOps ++ row0)) w
      ∧ FirstLane A (chiLane A 0 0) w := by
  set w : Core (ℕ → U64) := ⟨c.reg, c.zf, wordAt c.mem q⟩ with hw
  have start : Follows A p q consts sp c.mem c w :=
    ⟨Windows.start h.rdi_eq h.rsi_eq h.lanes, h.r15_eq, h.rsp_eq⟩
  refine ⟨_, start.execAll hpq (thetaOps ++ row0) (by decide), ?_⟩
  obtain ⟨loaded, -⟩ := theta_columns (A := A) (w := w)
    ⟨h.row.rax_eq, h.row.rbx_eq, h.row.rcx_eq, h.row.rdx_eq, h.row.rbp_eq⟩
  rw [execAll_append]
  exact (row0_spec loaded).1

/-- The constant comes from memory, through a register of its own. -/
theorem iotaOps_spec {A : Lanes} {p q consts sp x₀ k : U64} {m : Mem} {c : Core Mem}
    {w : Core (ℕ → U64)} (h : Follows A p q consts sp m c w) (first : FirstLane A x₀ w)
    (hk : load c.mem consts = k) :
    ∃ w', Follows A p q (consts + 8) sp m (execAll bytePort c iotaOps) w'
      ∧ FirstLane A (x₀ ^^^ k) w' := by
  have hconst : load c.mem (consts + BitVec.ofInt 64 0) = k := by
    rw [← hk]
    exact congrArg (load c.mem) (BitVec.add_zero consts)
  set x := w.reg r9 ^^^ k with hx
  have hset := (h.win.setReg_of_ne (r := r9) (x := x) (z := x == 0) (by decide)).setReg_of_ne
    (r := r15) (x := consts + 8) (z := x == 0) (by decide)
  refine ⟨⟨setReg (setReg w.reg r9 x) r15 (consts + 8), x == 0, w.mem⟩, ⟨?_, ?_, ?_⟩, ?_⟩
  · simp only [iotaOps, execAll_cons, execAll_nil, Op.exec, Operand.read, Operand.writeFlag,
      Operand.write, bytePort, setReg_apply, reduceCtorEq, if_false, h.win.reg, h.r15_eq, hconst]
    rw [h.win.reg] at hset
    exact hset
  · simp
  · simp [h.rsp_eq]
  · refine ⟨⟨?_, ?_, ?_, ?_, ?_⟩, ?_, ?_, ?_, ?_, ?_, ?_⟩ <;>
      simp [hx, first.rax_eq, first.rbx_eq, first.rcx_eq, first.rdx_eq, first.rbp_eq, first.r8_eq,
        first.r9_eq, first.r10_eq, first.r11_eq, first.r12_eq, first.r13_eq]

/-- The last plane is written through the pointer that has been read so far. -/
theorem tail_spec {A : Lanes} {p q consts sp : U64} {m : Mem} {c : Core Mem}
    {w : Core (ℕ → U64)} (hpq : Apart p 200 q 200) (h : Follows A p q consts sp m c w)
    (last : LastPlane A w) :
    ∃ w', Windows 100 25 rsi rdi p q (flipped A) m
        (execAll bytePort c (.xchg rsi rdi :: (plane4 ++ [.test 255 r15]))) w'
      ∧ w'.reg r15 = consts ∧ w'.reg rsp = sp ∧ w'.zf = (consts &&& 255 == 0)
      ∧ LastRow w'.mem w' ∧ Stored 4 (chiLane A 4) w.mem w'.mem := by
  have hlast : LastPlane A ((Op.xchg rsi rdi).exec (port A) w) := by
    refine ⟨?_, ?_, ?_, ?_, ?_⟩ <;>
      simp [last.rax_eq, last.rbx_eq, last.rcx_eq, last.rdx_eq, last.rbp_eq]
  have hmem : ((Op.xchg rsi rdi).exec (port A) w).mem = w.mem := by
    simp only [Op.exec]
  have hr15 : ((Op.xchg rsi rdi).exec (port A) w).reg r15 = consts :=
    (Op.reg_exec _ w (by decide)).trans h.r15_eq
  have hrsp : ((Op.xchg rsi rdi).exec (port A) w).reg rsp = sp :=
    (Op.reg_exec _ w (by decide)).trans h.rsp_eq
  have win := h.win.xchg (by decide)
  generalize (Op.xchg rsi rdi).exec (windowPort 100 (flipped A)) w = w₁ at *
  rw [execAll_cons]
  obtain ⟨row, stored⟩ := plane4_spec hlast
  rw [hmem] at stored
  have hr15' := (reg_execAll (port A) plane4 w₁ (r := r15) (by decide)).trans hr15
  have hrsp' := (reg_execAll (port A) plane4 w₁ (r := rsp) (by decide)).trans hrsp
  have win' := win.execAll hpq (by omega) (plane4 ++ [.test 255 r15]) (by decide)
  refine ⟨_, win', ?_⟩
  rw [execAll_append]
  generalize execAll (port A) w₁ plane4 = w₂ at *
  refine ⟨hr15', hrsp', ?_, ⟨row.rax_eq, row.rbx_eq, row.rcx_eq, row.rdx_eq, row.rbp_eq⟩, stored⟩
  rw [← hr15']
  simp

theorem planeOps_keep : ∀ o ∈ planeOps,
    o.Within 100 25 rdi rsi ∧ r15 ∉ o.targets ∧ rsp ∉ o.targets := by
  decide +kernel

/-- The operations of the loop, with the pointer to the constants at `consts`. -/
theorem loopOps_spec {A : Lanes} {ir : ℕ} {p q consts sp : U64} {m₀ : Mem} {c : Core Mem}
    (hpq : Apart p 200 q 200) (h : Turning A p q consts sp m₀ c)
    (hk : load m₀ consts = Keccak.roundConstant ir) (hp : Apart consts 8 p 200)
    (hq : Apart consts 8 q 200) :
    Turning (Keccak.round A ir) q p (consts + 8) sp m₀ (execAll bytePort c loopOps)
      ∧ (execAll bytePort c loopOps).zf = (consts + 8 &&& 255 == 0) := by
  obtain ⟨w₁, f₁, first₁⟩ := head_spec hpq h
  have hload : load (execAll bytePort c (thetaOps ++ row0)).mem consts
      = Keccak.roundConstant ir := by
    rw [← hk]
    refine load_congr fun i hi => ?_
    rw [f₁.win.frame _ (hq.outside hi), h.frame _ (hp.outside hi) (hq.outside hi)]
  obtain ⟨w₂, f₂, first₂⟩ := iotaOps_spec f₁ first₁ hload
  obtain ⟨last, d₁, d₂, d₃, s₀, s₁, s₂, s₃⟩ := planes_spec first₂
  obtain ⟨w₄, win, hr15, hrsp, hzf, row, s₄⟩ := tail_spec hpq (f₂.execAll hpq _ planeOps_keep) last
  have hstored := stored_round s₀ s₁ s₂ s₃ s₄
  rw [loopOps_eq, execAll_append, execAll_append, execAll_append]
  refine ⟨⟨?_, ⟨?_, ?_, ?_, ?_, ?_⟩, win.wr_eq, win.rd_eq, ?_, ?_, ?_⟩, ?_⟩
  · intro i hi
    rw [win.dst_eq i hi, hstored i hi]
  · rw [win.reg, row.rax_eq, hstored 20 (by omega)]
  · rw [win.reg, row.rbx_eq, hstored 21 (by omega)]
  · rw [win.reg, row.rcx_eq, hstored 22 (by omega)]
  · rw [win.reg, row.rdx_eq, hstored 23 (by omega)]
  · rw [win.reg, row.rbp_eq, hstored 24 (by omega)]
  · rw [win.reg, hr15]
  · rw [win.reg, hrsp]
  · intro a hq' hp'
    rw [win.frame a hq', h.frame a hp' hq']
  · rw [win.zf, hzf]

/-! ### The loop -/

/-- The number of the first instruction of the loop. -/
abbrev top : ℕ := program.start .Loop

def afterLoop : List (Instr Label Data) :=
  [.jnz .Loop, .op (.lea (-192) r15 r15), .ret]

theorem drop_top : program.instrs.drop top
    = loopOps.map Instr.op ++ (afterLoop ++ Program.instrs (program.drop 2)) := by
  rw [← List.append_assoc]
  exact Program.drop_start (program.take 1) rfl (by decide)

theorem after_loop {j : ℕ} {I : Instr Label Data} (h : afterLoop[j]? = some I) :
    program.instrs[top + loopOps.length + j]? = some I := by
  have hj : j < afterLoop.length := (List.getElem?_eq_some_iff.mp h).1
  rw [Nat.add_assoc, ← List.getElem?_drop, drop_top, List.getElem?_append_right (by simp),
    List.length_map, Nat.add_sub_cancel_left, List.getElem?_append_left hj, h]

theorem iotas_eq : ∀ k < 24, iotas.getD k 0 = Keccak.roundConstant k := by
  decide +kernel

/-- The constants in memory, out of the way of the two arrays. -/
structure Constants (D p q : U64) (m : Mem) : Prop where
  words : ∀ k < 24, wordAt m D k = iotas.getD k 0
  apart_p : Apart D 192 p 200
  apart_q : Apart D 192 q 200
  aligned : D.toNat % 256 = 64

/-- The pointer to the constants after `k` turns. -/
def constsAt (D : U64) (k : ℕ) : U64 := D + BitVec.ofNat 64 (8 * k)

theorem constsAt_succ (D : U64) (k : ℕ) : constsAt D (k + 1) = constsAt D k + 8 := by
  rw [constsAt, constsAt, BitVec.add_assoc, show (8 : U64) = BitVec.ofNat 64 8 from rfl,
    ← BitVec.ofNat_add, Nat.mul_succ]

/-- The test of the low byte stops the loop at the end of the constants. -/
theorem test_constsAt {D : U64} (h : D.toNat % 256 = 64) {k : ℕ} (hk : k ≤ 24) :
    (constsAt D k &&& 255 == 0) = decide (k = 24) := by
  have hlow : (constsAt D k &&& 255).toNat = 64 + 8 * k - (if k = 24 then 256 else 0) := by
    rw [BitVec.toNat_and, show (255 : U64).toNat = 2 ^ 8 - 1 from rfl,
      Nat.and_two_pow_sub_one_eq_mod, constsAt, BitVec.toNat_add, BitVec.toNat_ofNat]
    split <;> omega
  rw [Bool.eq_iff_iff, beq_iff_eq, decide_eq_true_iff, ← BitVec.toNat_inj, hlow]
  split <;> simp <;> omega

theorem turn (L : Layout program) {A : Lanes} {k : ℕ} {D p q sp : U64} {m₀ : Mem} {c : Core Mem}
    (hpq : Apart p 200 q 200) (consts : Constants D p q m₀) (hk : k < 24)
    (h : Turning A p q (constsAt D k) sp m₀ c) :
    ∃ c', L.Reaches ⟨c, L.addr top⟩
        ⟨c', if k + 1 = 24 then L.addr (top + loopOps.length + 1) else L.addr top⟩
      ∧ Turning (Keccak.round A k) q p (constsAt D (k + 1)) sp m₀ c' := by
  have hload : load m₀ (constsAt D k) = Keccak.roundConstant k :=
    (consts.words k hk).trans (iotas_eq k hk)
  have hpart : ∀ r : U64, Apart D 192 r 200 → Apart (constsAt D k) 8 r 200 := by
    intro r hr
    have h := hr.part (8 * k) 8 0 200 (by omega) (by omega)
    rwa [BitVec.add_zero] at h
  obtain ⟨hturn, hzf⟩ := loopOps_spec hpq h hload (hpart p consts.apart_p) (hpart q consts.apart_q)
  rw [← constsAt_succ] at hturn hzf
  rw [test_constsAt consts.aligned (by omega)] at hzf
  have hat : program.instrs[top + loopOps.length]? = some (.jnz .Loop) := by
    simpa only [Nat.add_zero] using after_loop (j := 0) rfl
  have hloop := L.reaches_ops _ (c := c) ⟨_, drop_top.symm⟩
  have hjnz := L.reaches_next (s := ⟨execAll bytePort c loopOps, L.addr (top + loopOps.length)⟩)
    hat rfl
  simp only [Layout.next, hzf, decide_eq_true_eq] at hjnz
  exact ⟨execAll bytePort c loopOps, hloop.trans hjnz, hturn⟩

/-- The array that holds the state after `k` turns. -/
def side (k : ℕ) (p q : U64) : U64 := if k % 2 = 0 then p else q

theorem side_succ (k : ℕ) (p q : U64) : side (k + 1) p q = side k q p := by
  rcases Nat.mod_two_eq_zero_or_one k with h | h
  · simp [side, h, Nat.add_mod]
  · simp [side, h, Nat.add_mod]

theorem side_cases (k : ℕ) (p q : U64) :
    (side k p q = p ∧ side k q p = q) ∨ (side k p q = q ∧ side k q p = p) := by
  unfold side
  split
  · exact Or.inl ⟨rfl, rfl⟩
  · exact Or.inr ⟨rfl, rfl⟩

theorem turns (L : Layout program) {A : Lanes} {D p q sp : U64} {m₀ : Mem} {c : Core Mem}
    (hpq : Apart p 200 q 200) (consts : Constants D p q m₀) (h : Turning A p q D sp m₀ c) {k : ℕ}
    (hk : k ≤ 24) :
    ∃ c', L.Reaches ⟨c, L.addr top⟩
        ⟨c', if k = 24 then L.addr (top + loopOps.length + 1) else L.addr top⟩
      ∧ Turning ((List.range k).foldl Keccak.round A) (side k p q) (side k q p) (constsAt D k) sp
          m₀ c' := by
  induction k with
  | zero =>
    refine ⟨c, .refl, ?_⟩
    have h0 : constsAt D 0 = D := BitVec.add_zero D
    rw [h0]
    exact h
  | succ k ih =>
    obtain ⟨c', hreach, hturn⟩ := ih (by omega)
    rw [if_neg (by omega)] at hreach
    have hsides : Apart (side k p q) 200 (side k q p) 200
        ∧ Constants D (side k p q) (side k q p) m₀ := by
      rcases side_cases k p q with ⟨h₁, h₂⟩ | ⟨h₁, h₂⟩ <;> rw [h₁, h₂]
      · exact ⟨hpq, consts⟩
      · exact ⟨hpq.symm, { consts with apart_p := consts.apart_q, apart_q := consts.apart_p }⟩
    obtain ⟨c'', hreach', hturn'⟩ := turn L hsides.1 hsides.2 (by omega) hturn
    refine ⟨c'', hreach.trans hreach', ?_⟩
    rw [List.range_succ, List.foldl_append, side_succ, side_succ]
    exact hturn'

/-! ### The inner function -/

theorem jmp_at : program.instrs[entry.length]? = some (.jmp .Loop) := rfl

/-- `__KeccakF1600` permutes the array at `p`, with the array at `q` for the odd rounds. -/
theorem inner_spec (L : Layout program) {A : Lanes} {D p q sp : U64} {c : Core Mem}
    (hpq : Apart p 200 q 200) (consts : Constants D p q c.mem)
    (hlanes : ∀ i < 25, wordAt c.mem p i = flipped A i) (hrdi : c.reg rdi = p + 100)
    (hrsi : c.reg rsi = q + 100) (hr15 : c.reg r15 = D) (hrsp : c.reg rsp = sp)
    (hp : Apart sp 8 p 200) (hq : Apart sp 8 q 200) :
    ∃ c', L.Reaches ⟨c, L.addr (program.start .__KeccakF1600)⟩ ⟨c', load c.mem sp⟩
      ∧ (∀ i < 25, wordAt c'.mem p i = flipped (Keccak.keccakF A) i)
      ∧ c'.reg rdi = p + 100 ∧ c'.reg rsp = sp + 8
      ∧ ∀ a, Outside a p 200 → Outside a q 200 → c'.mem a = c.mem a := by
  set w : Core (ℕ → U64) := ⟨c.reg, c.zf, wordAt c.mem q⟩ with hw
  have win : Windows 100 25 rdi rsi p q (flipped A) c.mem c w := Windows.start hrdi hrsi hlanes
  have win₁ := win.execAll hpq (by omega) entry (by decide)
  have hrow : LastRow (flipped A) (execAll (port A) w entry) := by
    refine ⟨?_, ?_, ?_, ?_, ?_⟩ <;> simp [entry]
  -- the last row is loaded
  have hentry := L.reaches_ops entry (c := c) (i := 0) ⟨_, rfl⟩
  rw [Nat.zero_add] at hentry
  have hjmp := L.reaches_next (s := ⟨execAll bytePort c entry, L.addr entry.length⟩) jmp_at rfl
  have hmem : (execAll bytePort c entry).mem = c.mem := rfl
  have hturn : Turning A p q D sp c.mem (execAll bytePort c entry) := by
    refine ⟨win₁.src_eq, ⟨?_, ?_, ?_, ?_, ?_⟩, win₁.rd_eq, win₁.wr_eq, ?_, ?_, fun _ _ _ => rfl⟩
    · rw [win₁.reg, hrow.rax_eq]
    · rw [win₁.reg, hrow.rbx_eq]
    · rw [win₁.reg, hrow.rcx_eq]
    · rw [win₁.reg, hrow.rdx_eq]
    · rw [win₁.reg, hrow.rbp_eq]
    · rw [reg_execAll _ _ c (by decide), hr15]
    · rw [reg_execAll _ _ c (by decide), hrsp]
  obtain ⟨c₁, hloop, hend⟩ := turns L hpq consts hturn (le_refl 24)
  rw [if_pos rfl] at hloop
  have hlea := L.reaches_next (s := ⟨c₁, L.addr (top + loopOps.length + 1)⟩)
    (after_loop (j := 1) rfl) rfl
  have hret := L.reaches_next (s := ⟨{ c₁ with reg := setReg c₁.reg r15 (c₁.reg r15
    + BitVec.ofInt 64 (-192)) }, L.addr (top + loopOps.length + 2)⟩) (after_loop (j := 2) rfl) rfl
  have hload : load c₁.mem sp = load c.mem sp :=
    load_congr fun i hi => hend.frame _ (hp.outside hi) (hq.outside hi)
  have hrsp₁ : setReg c₁.reg r15 (c₁.reg r15 + BitVec.ofInt 64 (-192)) rsp = sp :=
    (setReg_ne (by decide)).trans hend.rsp_eq
  have hall := (hentry.trans hjmp).trans ((hloop.trans hlea).trans hret)
  simp only [Layout.next, hrsp₁, hload] at hall
  exact ⟨_, hall, hend.lanes, hend.rdi_eq, rfl, hend.frame⟩

/-! ### The call -/

/-- A call of `KeccakF1600` with the state at `rdi`: the return address is on top of the
stack; the state, the 256 bytes of stack below and the constants do not overlap. -/
structure Called (L : Layout program) (s : X86.State) : Prop where
  rip_eq : s.rip = L.addr (program.start .KeccakF1600)
  state_apart : Apart (s.reg rdi) 200 (s.reg rsp - 256) 264
  iotas_state : Apart (L.data .iotas) 192 (s.reg rdi) 200
  iotas_stack : Apart (L.data .iotas) 192 (s.reg rsp - 256) 256
  iotas_words : ∀ k < 24, wordAt s.mem (L.data .iotas) k = iotas.getD k 0
  iotas_aligned : (L.data .iotas).toNat % 256 = 64

/-- The lanes at an address. -/
def lanesAt (m : Mem) (p : U64) : Lanes := Vector.ofFn fun i => wordAt m p i

/-- The registers pushed, and the displacements of the complemented lanes. -/
def saved : List Reg := [rbx, rbp, r12, r13, r14, r15]
def flippedAt : List ℤ := [-92, -84, -36, -4, 36, 60]

theorem prologue_eq : prologue = [.endbr64] ++ (saved.map .push ++ ([.lea 100 rdi rdi, .sub 200 rsp]
    ++ flippedAt.map fun d => .not (.mem d rdi))) :=
  rfl

/-- Restoring the registers from the frame. -/
def restore : List Op :=
  [.lea (-100) rdi rdi,
    .lea 248 rsp r11, .mov (.mem (-48) r11) r15, .mov (.mem (-40) r11) r14,
    .mov (.mem (-32) r11) r13, .mov (.mem (-24) r11) r12, .mov (.mem (-16) r11) rbp,
    .mov (.mem (-8) r11) rbx, .lea 0 r11 rsp]

theorem epilogue_eq : epilogue = (flippedAt.map fun d => .not (.mem d rdi)) ++ restore := rfl

/-- Complementing the six lanes turns the words of a state into the code's, and back. -/
theorem flips {p : U64} {c : Core Mem} (hp : c.reg rdi = p + 100) :
    (execAll bytePort c (flippedAt.map fun d => .not (.mem d rdi))).reg = c.reg
      ∧ (∀ i < 25, wordAt (execAll bytePort c (flippedAt.map fun d => .not (.mem d rdi))).mem p i
          = flip i (wordAt c.mem p i))
      ∧ ∀ a, Outside a p 200 →
          (execAll bytePort c (flippedAt.map fun d => .not (.mem d rdi))).mem a = c.mem a :=
  not_all 100 25 (by omega) (by decide) (by decide) hp

theorem flip_flip (i : ℕ) (x : U64) : flip i (flip i x) = x := by
  unfold flip
  split <;> simp

theorem flipped_lanesAt (m : Mem) (p : U64) {i : ℕ} (hi : i < 25) :
    flipped (lanesAt m p) i = flip i (wordAt m p i) := by
  have hsplit : i % 5 % 5 + 5 * (i / 5 % 5) = i := by omega
  simp only [flipped, Keccak.lane, lanesAt, Vector.getElem_ofFn, hsplit]

theorem flip_flipped (A : Lanes) {i : ℕ} (hi : i < 25) : flip i (flipped A i) = A[i] := by
  rw [flipped, flip_flip, Keccak.getElem_eq_lane]

/-- The prologue: six registers saved at `b + 208`, room for an array at `b + 8`, and the
state complemented. -/
theorem prologue_spec {p b : U64} {c : Core Mem} (hrdi : c.reg rdi = p)
    (hrsp : c.reg rsp = b + BitVec.ofNat 64 256) (hpb : Apart p 200 b 264) :
    (execAll bytePort c prologue).reg
        = setReg (setReg c.reg rdi (p + 100)) rsp (b + BitVec.ofNat 64 8)
      ∧ (∀ i < 25, wordAt (execAll bytePort c prologue).mem p i = flipped (lanesAt c.mem p) i)
      ∧ (∀ i r, saved.reverse[i]? = some r →
          wordAt (execAll bytePort c prologue).mem (b + BitVec.ofNat 64 208) i = c.reg r)
      ∧ ∀ a, Outside a p 200 → Outside a b 256 → (execAll bytePort c prologue).mem a = c.mem a := by
  rw [prologue_eq, execAll_append, execAll_append, execAll_append]
  have hc₀ : execAll bytePort c [.endbr64] = c := rfl
  rw [hc₀]
  obtain ⟨hreg₁, hword₁, hframe₁⟩ := push_all saved (by decide) (c := c)
    (b := b + BitVec.ofNat 64 208) (by rw [hrsp, BitVec.add_assoc, ← BitVec.ofNat_add]; rfl)
    (by decide)
  have hS : Apart p 200 (b + BitVec.ofNat 64 208) 48 := by
    have h := hpb.part 0 200 208 48 (by omega) (by omega)
    rwa [BitVec.add_zero] at h
  generalize execAll bytePort c (saved.map .push) = c₁ at *
  -- the array is addressed from its middle, and the stack makes room for another
  have hrdi₁ : c₁.reg rdi = p := by
    rw [hreg₁, setReg_ne (by decide), hrdi]
  have hrsp₁ : c₁.reg rsp = b + BitVec.ofNat 64 208 := by
    rw [hreg₁, setReg_apply, if_pos rfl]
  have hroom : execAll bytePort c₁ [.lea 100 rdi rdi, .sub 200 rsp]
      = ⟨setReg (setReg c₁.reg rdi (p + 100)) rsp (b + BitVec.ofNat 64 8),
        b + BitVec.ofNat 64 8 == 0, c₁.mem⟩ := by
    have hsub : b + BitVec.ofNat 64 208 - BitVec.ofInt 64 200 = b + BitVec.ofNat 64 8 := by
      rw [BitVec.sub_eq_add_neg, BitVec.add_assoc]
      rfl
    simp only [execAll_cons, execAll_nil, Op.exec, Operand.read, Operand.write, Operand.writeFlag,
      setReg_ne (show rsp ≠ rdi by decide), hrdi₁, hrsp₁, hsub]
    rfl
  rw [hroom]
  obtain ⟨hreg₂, hword₂, hframe₂⟩ := flips (p := p)
    (c := ⟨setReg (setReg c₁.reg rdi (p + 100)) rsp (b + BitVec.ofNat 64 8),
      b + BitVec.ofNat 64 8 == 0, c₁.mem⟩)
    (by simp)
  refine ⟨?_, ?_, ?_, ?_⟩
  · rw [hreg₂]
    funext r
    by_cases hr : r = rsp
    · simp [hr]
    · simp [hr, hreg₁]
  · intro i hi
    have hsame : wordAt c₁.mem p i = wordAt c.mem p i :=
      wordAt_congr (n := 25) hi fun k hk => hframe₁ _ (hS.outside (by omega))
    rw [hword₂ i hi, flipped_lanesAt _ _ hi, hsame]
  · intro i r hr
    have hi : i < 6 := (List.getElem?_eq_some_iff.mp hr).1
    rw [← hword₁ i r hr]
    exact wordAt_congr (n := 6) hi fun k hk => hframe₂ _ (hS.symm.outside (by omega))
  · intro a hp hb
    rw [hframe₂ a hp, hframe₁ a (hb.part (by decide))]

/-- The end of the epilogue: the saved registers come back. -/
theorem restore_spec {p b : U64} {c : Core Mem} (hrdi : c.reg rdi = p + 100)
    (hrsp : c.reg rsp = b + BitVec.ofNat 64 8) {old : Reg → U64}
    (hword : ∀ i r, saved.reverse[i]? = some r →
      wordAt c.mem (b + BitVec.ofNat 64 208) i = old r) :
    (execAll bytePort c restore).mem = c.mem ∧ (execAll bytePort c restore).reg rdi = p
      ∧ (execAll bytePort c restore).reg rsp = b + BitVec.ofNat 64 256
      ∧ ∀ r ∈ saved, (execAll bytePort c restore).reg r = old r := by
  have hback : p + 100 + BitVec.ofInt 64 (-100) = p := by
    rw [BitVec.add_assoc]
    exact BitVec.add_zero p
  have htop : b + BitVec.ofNat 64 8 + BitVec.ofInt 64 248 = b + BitVec.ofNat 64 256 := by
    rw [BitVec.add_assoc]
    rfl
  have hslot : ∀ i d, BitVec.ofNat 64 256 + BitVec.ofInt 64 d = BitVec.ofNat 64 (208 + 8 * i) →
      load c.mem (b + BitVec.ofNat 64 256 + BitVec.ofInt 64 d)
        = wordAt c.mem (b + BitVec.ofNat 64 208) i := by
    intro i d h
    rw [wordAt, BitVec.add_assoc, h, BitVec.add_assoc, ← BitVec.ofNat_add]
  have hzero : b + BitVec.ofNat 64 256 + BitVec.ofInt 64 0 = b + BitVec.ofNat 64 256 :=
    BitVec.add_zero _
  refine ⟨rfl, ?_, ?_, ?_⟩
  · simp only [restore, execAll_cons, execAll_nil, Op.exec, Operand.read, Operand.write, bytePort,
      setReg_apply, reduceCtorEq, if_true, if_false, hrdi, hback]
  · simp only [restore, execAll_cons, execAll_nil, Op.exec, Operand.read, Operand.write, bytePort,
      setReg_apply, reduceCtorEq, if_true, if_false, hrsp, htop, hzero]
  · intro r hr
    simp only [restore, execAll_cons, execAll_nil, Op.exec, Operand.read, Operand.write, bytePort,
      setReg_apply, reduceCtorEq, if_true, if_false, hrsp, htop]
    simp only [saved, List.mem_cons, List.not_mem_nil, or_false] at hr
    rcases hr with rfl | rfl | rfl | rfl | rfl | rfl
    · simpa using (hslot 5 (-8) rfl).trans (hword 5 rbx rfl)
    · simpa using (hslot 4 (-16) rfl).trans (hword 4 rbp rfl)
    · simpa using (hslot 3 (-24) rfl).trans (hword 3 r12 rfl)
    · simpa using (hslot 2 (-32) rfl).trans (hword 2 r13 rfl)
    · simpa using (hslot 1 (-40) rfl).trans (hword 1 r14 rfl)
    · simpa using (hslot 0 (-48) rfl).trans (hword 0 r15 rfl)

/-- The number of the first instruction of the function. -/
abbrev outer : ℕ := program.start .KeccakF1600

def callInner : List (Instr Label Data) :=
  [.leaRip .iotas r15, .op (.lea 100 rsp rsi), .call .__KeccakF1600]

theorem drop_outer : program.instrs.drop outer
    = prologue.map Instr.op ++ (callInner ++ (epilogue.map Instr.op ++ [.ret])) := by
  have h := Program.drop_start (program.take 2) (P := program) (l := .KeccakF1600) rfl
    (by decide)
  simpa only [callInner, Program.instrs, List.flatMap_nil, List.append_nil,
    List.append_assoc] using h

theorem drop_call : program.instrs.drop (outer + prologue.length)
    = callInner ++ (epilogue.map Instr.op ++ [.ret]) := by
  rw [← List.drop_drop, drop_outer]
  exact List.drop_left' (by simp)

theorem drop_back : program.instrs.drop (outer + prologue.length + 3)
    = epilogue.map Instr.op ++ [.ret] := by
  rw [← List.drop_drop, drop_call]
  rfl

theorem in_call {j : ℕ} {I : Instr Label Data} (h : callInner[j]? = some I) :
    program.instrs[outer + prologue.length + j]? = some I := by
  have hj : j < callInner.length := (List.getElem?_eq_some_iff.mp h).1
  rw [← List.getElem?_drop, drop_call, List.getElem?_append_left hj, h]

theorem ret_at : program.instrs[outer + prologue.length + 3 + epilogue.length]? = some .ret := by
  rw [← List.getElem?_drop, drop_back, List.getElem?_append_right (by simp)]
  simp

/-- From the prologue to the return of the inner function. -/
theorem call_spec (L : Layout program) {A : Lanes} {p b : U64} {c : Core Mem}
    (hpb : Apart p 200 b 264) (hD_p : Apart (L.data .iotas) 192 p 200)
    (hD_b : Apart (L.data .iotas) 192 b 256)
    (hwords : ∀ k < 24, wordAt c.mem (L.data .iotas) k = iotas.getD k 0)
    (haligned : (L.data .iotas).toNat % 256 = 64)
    (hlanes : ∀ i < 25, wordAt c.mem p i = flipped A i) (hrdi : c.reg rdi = p + 100)
    (hrsp : c.reg rsp = b + BitVec.ofNat 64 8) :
    ∃ c', L.Reaches ⟨c, L.addr (outer + prologue.length)⟩
        ⟨c', L.addr (outer + prologue.length + 3)⟩
      ∧ (∀ i < 25, wordAt c'.mem p i = flipped (Keccak.keccakF A) i)
      ∧ c'.reg rdi = p + 100 ∧ c'.reg rsp = b + BitVec.ofNat 64 8
      ∧ ∀ a, Outside a p 200 → Outside a b 208 → c'.mem a = c.mem a := by
  set q := b + BitVec.ofNat 64 8 with hq
  have hpq : Apart p 200 q 200 := by
    have h := hpb.part 0 200 8 200 (by omega) (by omega)
    rwa [BitVec.add_zero] at h
  have hb_p : Apart b 8 p 200 := by
    have h := (hpb.part 0 200 0 8 (by omega) (by omega)).symm
    rwa [BitVec.add_zero, BitVec.add_zero] at h
  have hb_q : Apart b 8 q 200 := by
    have h := apart_of_lt (p := b) (i := 0) (n := 8) (j := 8) (k := 200) (by omega) (by omega)
    rwa [BitVec.add_zero] at h
  have hD_q : Apart (L.data .iotas) 192 q 200 := by
    have h := hD_b.part 0 192 8 200 (by omega) (by omega)
    rwa [BitVec.add_zero] at h
  have hD_slot : Apart (L.data .iotas) 192 b 8 := by
    have h := hD_b.part 0 192 0 8 (by omega) (by omega)
    rwa [BitVec.add_zero, BitVec.add_zero] at h
  have hat : ∀ {j : ℕ} {I : Instr Label Data}, callInner[j]? = some I →
      program.instrs[outer + prologue.length + j]? = some I := in_call
  generalize outer + prologue.length = i₀ at *
  -- the call itself
  set back := L.addr (i₀ + 3) with hback
  set c₁ : Core Mem := ⟨setReg (setReg (setReg c.reg r15 (L.data .iotas)) rsi (q + 100)) rsp b,
    c.zf, store c.mem b back⟩ with hc₁
  have hcall : L.Reaches ⟨c, L.addr i₀⟩ ⟨c₁, L.addr (program.start .__KeccakF1600)⟩ := by
    have h₀ := L.reaches_next (s := ⟨c, L.addr (i₀ + 0)⟩) (hat (j := 0) rfl) rfl
    have h₁ := L.reaches_next (s := ⟨{ c with reg := setReg c.reg r15 (L.data .iotas) },
      L.addr (i₀ + 1)⟩) (hat (j := 1) rfl) rfl
    have h₂ := L.reaches_next (s := ⟨{ c with
      reg := setReg (setReg c.reg r15 (L.data .iotas)) rsi (q + 100) },
      L.addr (i₀ + 2)⟩) (hat (j := 2) rfl) rfl
    have hpop : q - 8 = b := BitVec.add_sub_cancel _ _
    simp only [Layout.next, Op.exec, setReg_apply, reduceCtorEq, if_false, hrsp, hpop] at h₀ h₁ h₂
    exact (h₀.trans h₁).trans h₂
  have hmem₁ : ∀ a, Outside a b 8 → c₁.mem a = c.mem a := fun a ha => store_of_outside ha
  have consts : Constants (L.data .iotas) p q c₁.mem := by
    refine ⟨?_, hD_p, hD_q, haligned⟩
    intro k hk
    rw [← hwords k hk]
    exact wordAt_congr (n := 24) hk fun j hj => hmem₁ _ (hD_slot.outside hj)
  have hlanes₁ : ∀ i < 25, wordAt c₁.mem p i = flipped A i := by
    intro i hi
    rw [← hlanes i hi]
    exact wordAt_congr (n := 25) hi fun j hj => hmem₁ _ (hb_p.symm.outside hj)
  obtain ⟨c', hreach, hlanes', hrdi', hrsp', hframe'⟩ := inner_spec L hpq consts hlanes₁
    (by simp [hc₁, hrdi]) (by simp [hc₁]) (by simp [hc₁]) (by simp [hc₁]) hb_p hb_q
  have hload : load c₁.mem b = back := load_store_self _ _ _
  rw [hload] at hreach
  refine ⟨c', hcall.trans hreach, hlanes', hrdi', hrsp', ?_⟩
  intro a hap hab
  have hbase : Outside a b 8 := fun i hi => hab i (by omega)
  rw [hframe' a hap (hab.part (by omega)), hmem₁ a hbase]

/-- `KeccakF1600` returns with Keccak-f[1600] of the caller's state in its place, the
registers of the caller as they were, and no other byte changed but in its frame. -/
theorem KeccakF1600_spec (L : Layout program) (s : X86.State) (h : Called L s) :
    ∃ t, L.Reaches s t ∧ t.rip = load s.mem (s.reg rsp)
      ∧ lanesAt t.mem (s.reg rdi) = Keccak.keccakF (lanesAt s.mem (s.reg rdi))
      ∧ t.reg rdi = s.reg rdi ∧ t.reg rsp = s.reg rsp + 8 ∧ (∀ r ∈ saved, t.reg r = s.reg r)
      ∧ ∀ a, Outside a (s.reg rdi) 200 → Outside a (s.reg rsp - 256) 256 → t.mem a = s.mem a := by
  obtain ⟨c, rip⟩ := s
  obtain ⟨hrip, hstate, hD_p, hD_b, hwords, haligned⟩ := h
  simp only at hrip hstate hD_p hD_b hwords haligned ⊢
  subst hrip
  generalize hp : c.reg rdi = p at *
  obtain ⟨b, hb⟩ : ∃ b, b = c.reg rsp - 256 := ⟨_, rfl⟩
  rw [← hb] at hstate hD_b ⊢
  have hrsp : c.reg rsp = b + BitVec.ofNat 64 256 := by
    rw [hb]
    exact (BitVec.sub_add_cancel _ _).symm
  -- the prologue
  have hpro := L.reaches_ops _ (c := c) (i := outer) ⟨_, drop_outer.symm⟩
  obtain ⟨hreg₁, hlanes₁, hsaved₁, hframe₁⟩ := prologue_spec hp hrsp hstate
  generalize execAll bytePort c prologue = c₁ at *
  have hwords₁ : ∀ k < 24, wordAt c₁.mem (L.data .iotas) k = iotas.getD k 0 := by
    intro k hk
    rw [← hwords k hk]
    exact wordAt_congr (n := 24) hk fun j hj => hframe₁ _ (hD_p.outside hj) (hD_b.outside hj)
  -- the call
  obtain ⟨c₂, hcall, hlanes₂, hrdi₂, hrsp₂, hframe₂⟩ := call_spec L hstate hD_p hD_b hwords₁
    haligned hlanes₁ (by simp [hreg₁]) (by simp [hreg₁])
  -- the epilogue
  have hback := L.reaches_ops _ (c := c₂) ⟨_, drop_back.symm⟩
  have hret := L.reaches_next (s := ⟨execAll bytePort c₂ epilogue,
    L.addr (outer + prologue.length + 3 + epilogue.length)⟩) ret_at rfl
  obtain ⟨hreg₃, hlanes₃, hframe₃⟩ := flips hrdi₂
  have hS : Apart (b + BitVec.ofNat 64 208) 48 p 200 := by
    have h := (hstate.part 0 200 208 48 (by omega) (by omega)).symm
    rwa [BitVec.add_zero] at h
  have hS_low : Apart (b + BitVec.ofNat 64 208) 48 b 208 := by
    have h := (apart_of_lt (p := b) (i := 0) (n := 208) (j := 208) (k := 48) (by omega)
      (by omega)).symm
    rwa [BitVec.add_zero] at h
  have hsaved : ∀ i r, saved.reverse[i]? = some r → wordAt (execAll bytePort c₂
      (flippedAt.map fun d => .not (.mem d rdi))).mem (b + BitVec.ofNat 64 208) i = c.reg r := by
    intro i r hr
    have hi : i < 6 := (List.getElem?_eq_some_iff.mp hr).1
    rw [← hsaved₁ i r hr]
    refine wordAt_congr (n := 6) hi fun k hk => ?_
    rw [hframe₃ _ (hS.outside (by omega)), hframe₂ _ (hS.outside (by omega))
      (hS_low.outside (by omega))]
  obtain ⟨hmem₄, hrdi₄, hrsp₄, hold⟩ := restore_spec (by rw [hreg₃, hrdi₂]) (by rw [hreg₃, hrsp₂])
    hsaved
  rw [← execAll_append, ← epilogue_eq] at hmem₄ hrdi₄ hrsp₄ hold
  have hframe : ∀ a, Outside a p 200 → Outside a b 256 →
      (execAll bytePort c₂ epilogue).mem a = c.mem a := by
    intro a hap hab
    have hlow : Outside a b 208 := fun i hi => hab i (by omega)
    rw [hmem₄, hframe₃ a hap, hframe₂ a hap hlow, hframe₁ a hap hab]
  generalize execAll bytePort c₂ epilogue = c₃ at *
  refine ⟨_, ((hpro.trans hcall).trans hback).trans hret, ?_, ?_, ?_, ?_, ?_, hframe⟩
  · -- the return address is above the frame
    show load c₃.mem (c₃.reg rsp) = load c.mem (c.reg rsp)
    rw [hrsp₄, hrsp]
    have hp256 := (hstate.part 0 200 256 8 (by omega)
      (by omega)).symm
    have hb256 := (apart_of_lt (p := b) (i := 0) (n := 256) (j := 256) (k := 8) (by omega)
      (by omega)).symm
    rw [BitVec.add_zero] at hp256 hb256
    exact load_congr fun k hk => hframe _ (hp256.outside hk) (hb256.outside hk)
  · apply Vector.ext
    intro i hi
    show (lanesAt c₃.mem p)[i] = _
    rw [lanesAt, Vector.getElem_ofFn, hmem₄, hlanes₃ i hi, hlanes₂ i hi, flip_flipped _ hi]
  · show setReg c₃.reg rsp (c₃.reg rsp + 8) rdi = p
    rw [setReg_ne (by decide), hrdi₄]
  · show c₃.reg rsp + 8 = c.reg rsp + 8
    rw [hrsp₄, hrsp]
  · intro r hr
    have hne : r ≠ rsp := by
      rintro rfl
      exact absurd hr (by decide)
    exact (setReg_ne hne).trans (hold r hr)

/-! ### A place for the program and a call -/

theorem length_program : program.instrs.length < 4096 := by
  decide +kernel

/-- Four bytes for each instruction, from `0x1000` on. -/
def placedAddr (i : ℕ) : U64 := BitVec.ofNat 64 (0x1000 + 4 * i)

theorem toNat_placedAddr {i : ℕ} (hi : i < program.instrs.length) :
    (placedAddr i).toNat = 0x1000 + 4 * i := by
  have := length_program
  rw [placedAddr, BitVec.toNat_ofNat, Nat.mod_eq_of_lt (by omega)]

theorem placedAddr_inj : ∀ i < program.instrs.length, ∀ j < program.instrs.length,
    placedAddr i = placedAddr j → i = j := by
  intro i hi j hj h
  have h' := congrArg BitVec.toNat h
  rw [toNat_placedAddr hi, toNat_placedAddr hj] at h'
  omega

/-- The code below `0x5000`, and the constants at `0x5040`. -/
def placed : Layout program where
  addr := placedAddr
  addr_inj := placedAddr_inj
  data _ := 0x5040

/-- A memory with the constants in place, the lanes `A` at `0x6000` and zeros above them. -/
def placedMem (A : Lanes) : Mem := fun a =>
  if a.toNat < 0x6000 then leByte (iotas.getD ((a.toNat - 0x5040) / 8) 0) (a.toNat % 8)
  else leByte (A.toList.getD ((a.toNat - 0x6000) / 8) 0) (a.toNat % 8)

/-- A call on the lanes `A`, with the stack below `0x8000` and a return to address 0. -/
def callOn (A : Lanes) : X86.State where
  reg r := if r = rdi then 0x6000 else if r = rsp then 0x8000 else 0
  zf := false
  mem := placedMem A
  rip := placed.addr outer

/-- Words of a table, read back from its bytes. -/
theorem wordAt_table {m : Mem} {p : U64} {f : ℕ → U64} {i : ℕ} (hp : p.toNat % 8 = 0)
    (hi : p.toNat + 8 * i + 8 ≤ 2 ^ 64)
    (h : ∀ a : U64, p.toNat + 8 * i ≤ a.toNat → a.toNat < p.toNat + 8 * i + 8 →
      m a = leByte (f ((a.toNat - p.toNat) / 8)) (a.toNat % 8)) : wordAt m p i = f i := by
  rw [wordAt, load, ← Bytes.ofLe_leByte (n := 8) (f i) (by omega)]
  refine Bytes.ofLe_congr fun k hk => ?_
  have haddr : (p + BitVec.ofNat 64 (8 * i) + BitVec.ofNat 64 k).toNat = p.toNat + 8 * i + k := by
    rw [BitVec.toNat_add, BitVec.toNat_add, BitVec.toNat_ofNat, BitVec.toNat_ofNat]
    omega
  rw [h _ (by omega) (by omega), haddr, show (p.toNat + 8 * i + k - p.toNat) / 8 = i by omega,
    show (p.toNat + 8 * i + k) % 8 = k by omega]

theorem wordAt_lanes (A : Lanes) {i : ℕ} (hi : i < 2048) :
    wordAt (placedMem A) 0x6000 i = A.toList.getD i 0 := by
  refine wordAt_table (f := fun j => A.toList.getD j 0) (by decide) ?_ fun a ha _ => ?_
  · rw [show (0x6000 : U64).toNat = 0x6000 from rfl]
    omega
  · rw [show (0x6000 : U64).toNat = 0x6000 from rfl] at ha ⊢
    exact if_neg (by omega)

theorem lanesAt_placedMem (A : Lanes) : lanesAt (placedMem A) 0x6000 = A := by
  apply Vector.ext
  intro i hi
  rw [lanesAt, Vector.getElem_ofFn, wordAt_lanes A (by omega)]
  simp [hi]

theorem callOn_called (A : Lanes) : Called placed (callOn A) := by
  have hrdi : (callOn A).reg rdi = 0x6000 := rfl
  have hrsp : (callOn A).reg rsp = 0x8000 := rfl
  refine ⟨by rw [callOn], ?_, ?_, ?_, ?_, by decide⟩
  · rw [hrdi, hrsp]
    exact apart_of_toNat (by decide) (by decide)
  · rw [hrdi]
    exact apart_of_toNat (by decide) (by decide)
  · rw [hrsp]
    exact apart_of_toNat (by decide) (by decide)
  · intro k hk
    have hD : (0x5040 : U64).toNat = 0x5040 := rfl
    refine wordAt_table (f := fun j => iotas.getD j 0) (by decide) ?_ fun a _ ha => ?_
    · rw [show placed.data .iotas = 0x5040 from rfl, hD]
      omega
    · rw [show placed.data .iotas = 0x5040 from rfl, hD] at ha ⊢
      exact if_pos (by omega)

theorem callOn_return (A : Lanes) : load (callOn A).mem ((callOn A).reg rsp) = 0 :=
  (wordAt_lanes A (i := 1024) (by omega)).trans (by simp [List.getD_eq_getElem?_getD])

theorem callOn_out (A : Lanes) :
    placed.index (load (callOn A).mem ((callOn A).reg rsp)) = none := by
  rw [Layout.index, List.find?_eq_none, callOn_return]
  intro i hi h
  have haddr := toNat_placedAddr (List.mem_range.mp hi)
  rw [show placedAddr i = 0 from beq_iff_eq.mp h, show (0 : U64).toNat = 0 from rfl] at haddr
  omega

/-! ### Every run returns -/

/-- Every run from a call leads to the return, where the program is left. -/
theorem KeccakF1600_returns (L : Layout program) (s : X86.State) (h : Called L s)
    (hout : L.index (load s.mem (s.reg rsp)) = none) :
    ∃ t, (∀ u, L.Reaches s u → L.Reaches u t) ∧ L.step t = none
      ∧ t.rip = load s.mem (s.reg rsp)
      ∧ lanesAt t.mem (s.reg rdi) = Keccak.keccakF (lanesAt s.mem (s.reg rdi))
      ∧ t.reg rsp = s.reg rsp + 8 ∧ (∀ r ∈ [rbx, rbp, r12, r13, r14, r15], t.reg r = s.reg r)
      ∧ ∀ a, Outside a (s.reg rdi) 200 → Outside a (s.reg rsp - 256) 256 → t.mem a = s.mem a := by
  obtain ⟨t, hreach, hrip, hlanes, -, hrsp, hsaved, hframe⟩ := KeccakF1600_spec L s h
  have hstop : L.step t = none := L.step_eq_none (by rw [hrip, hout])
  exact ⟨t, fun u hu => L.reaches_stop hreach hstop hu, hstop, hrip, hlanes, hrsp, hsaved, hframe⟩

theorem KeccakF1600_returns_zeros :
    ∃ t, (∀ u, placed.Reaches (callOn (Vector.replicate 25 0)) u → placed.Reaches u t)
      ∧ placed.step t = none ∧ t.rip = 0
      ∧ lanesAt t.mem 0x6000 = Keccak.keccakF (Vector.replicate 25 0) := by
  obtain ⟨t, hrun, hstop, hrip, hlanes, -⟩ := KeccakF1600_returns placed
    (callOn (Vector.replicate 25 0)) (callOn_called _) (callOn_out _)
  have hlanes' := hlanes.trans (congrArg Keccak.keccakF (lanesAt_placedMem _))
  exact ⟨t, hrun, hstop, hrip.trans (callOn_return _), hlanes'⟩

end KeccakAsm

/-! ### The build -/

open KeccakAsm

/-- The permutation of the build is what a call of the assembly leaves in the caller's
array when it has returned. -/
def Crates.CallsAssembly (c : Crates) : Prop :=
  ∀ (L : Layout program) (s t : X86.State),
    Called L s → L.index (load s.mem (s.reg rsp)) = none →
    L.Reaches s t → L.step t = none →
    lanesAt t.mem (s.reg rdi) = c.f1600 (lanesAt s.mem (s.reg rdi))

theorem Crates.CallsAssembly.f1600_eq {c : Crates} (h : c.CallsAssembly) (A : Keccak.Lanes) :
    c.f1600 A = Keccak.keccakF A := by
  obtain ⟨t, hreach, hrip, hlanes, -⟩ := KeccakF1600_spec placed (callOn A) (callOn_called A)
  have hstop : placed.step t = none := placed.step_eq_none (by rw [hrip, callOn_out])
  have hcall := h placed (callOn A) t (callOn_called A) (callOn_out A) hreach hstop
  have hA : lanesAt (callOn A).mem ((callOn A).reg rdi) = A := lanesAt_placedMem A
  rw [← hA, ← hcall, hlanes]

/-- A build with Keccak-f[1600] is described so. -/
theorem callsAssembly_of_keccakF {c : Crates} (h : ∀ A, c.f1600 A = Keccak.keccakF A) :
    c.CallsAssembly := by
  intro L s t hs hout hreach hstop
  obtain ⟨t', hreach', hrip', hlanes, -⟩ := KeccakF1600_spec L s hs
  have hstop' : L.step t' = none := L.step_eq_none (by rw [hrip', hout])
  rcases Relation.ReflTransGen.cases_head (L.reaches_stop hreach hstop hreach') with
    rfl | ⟨u, hstep, -⟩
  · rw [hlanes, h]
  · rw [hstop'] at hstep
    exact absurd hstep (by simp)
