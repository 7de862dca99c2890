/-
Keccak-f[1600] in the device code (`src/argon2_kernel.cl`).

`keccak_f1600_state` permutes 25 words in place: its loops overwrite entries that
later turns read again, and ρ and π are one walk along a cycle of positions.

* `get_thetaLoop`, `get_rhoPiLoop`, `get_chiLoop` — what each loop leaves in an
  entry, from the rules of `Loops`;
* `keccakF1600State_eq` — the whole is Keccak-f[1600] of FIPS 202.
-/
import VelkarMiner.Keccak
import VelkarMiner.Loops

open Bytes

namespace Kernel

def KECCAKF_RNDC : Vector U64 24 :=
  Vector.ofFn fun i =>
    [0x0000000000000001, 0x0000000000008082, 0x800000000000808a, 0x8000000080008000,
      0x000000000000808b, 0x0000000080000001, 0x8000000080008081, 0x8000000000008009,
      0x000000000000008a, 0x0000000000000088, 0x0000000080008009, 0x000000008000000a,
      0x000000008000808b, 0x800000000000008b, 0x8000000000008089, 0x8000000000008003,
      0x8000000000008002, 0x8000000000000080, 0x000000000000800a, 0x800000008000000a,
      0x8000000080008081, 0x8000000000008080, 0x0000000080000001, 0x8000000080008008].getD i.val 0

def KECCAKF_ROTC : Vector ℕ 24 :=
  Vector.ofFn fun i =>
    [1, 3, 6, 10, 15, 21, 28, 36, 45, 55, 2, 14, 27, 41, 56, 8, 25, 43, 62, 18, 39, 61, 20,
      44].getD i.val 0

def KECCAKF_PILN : Vector (Fin 25) 24 :=
  Vector.ofFn fun i =>
    [10, 7, 11, 17, 18, 3, 5, 16, 8, 21, 24, 4, 15, 23, 19, 13, 12, 2, 20, 14, 22, 9, 6,
      1].getD i.val 0

def rotl64 (x : U64) (n : ℕ) : U64 := (x <<< n) ||| (x >>> (64 - n))

theorem laneIndex_lt (y x : Fin 5) : 5 * y.val + x.val < 25 := by omega

/-- The index `j + i` of the loops, for `j = 5 y`. -/
def laneIndex (y x : Fin 5) : Fin 25 := ⟨5 * y.val + x.val, laneIndex_lt y x⟩

/-! ### The loops of a round -/

def thetaLoop (st : Vector U64 25) : Vector U64 25 :=
  let bc : Vector U64 5 := Vector.ofFn fun i =>
    st.get (laneIndex 0 i) ^^^ st.get (laneIndex 1 i) ^^^ st.get (laneIndex 2 i)
      ^^^ st.get (laneIndex 3 i) ^^^ st.get (laneIndex 4 i)
  (List.finRange 5).foldl (fun st i =>
    let t := bc.get (i + 4) ^^^ rotl64 (bc.get (i + 1)) 1
    (List.finRange 5).foldl (fun st y =>
      put st (laneIndex y i) (st.get (laneIndex y i) ^^^ t)) st) st

def rhoPiLoop (st : Vector U64 25) : Vector U64 25 :=
  let (st, _) := (List.finRange 24).foldl (fun s i =>
    let j := KECCAKF_PILN.get i
    (put s.1 j (rotl64 s.2 (KECCAKF_ROTC.get i)), s.1.get j)) (st, st.get 1)
  st

def chiLoop (st : Vector U64 25) : Vector U64 25 :=
  (List.finRange 5).foldl (fun st y =>
    let bc : Vector U64 5 := Vector.ofFn fun i => st.get (laneIndex y i)
    (List.finRange 5).foldl (fun st i =>
      put st (laneIndex y i)
        (st.get (laneIndex y i) ^^^ (~~~ bc.get (i + 1) &&& bc.get (i + 2)))) st) st

def keccakF1600State (st : Vector U64 25) : Vector U64 25 :=
  (List.finRange 24).foldl (fun st round =>
    let st := chiLoop (rhoPiLoop (thetaLoop st))
    put st 0 (st.get 0 ^^^ KECCAKF_RNDC.get round)) st

/-! ### What the loops leave behind -/

theorem rotl64_eq (x : U64) {n : ℕ} (hn : n < 64) : rotl64 x n = x.rotateLeft n := by
  rw [rotl64, BitVec.rotateLeft, Nat.mod_eq_of_lt hn]
  rfl

theorem laneIndex_eq_iff {y x : Fin 5} {q : Fin 25} :
    laneIndex y x = q ↔ y.val = q.val / 5 ∧ x.val = q.val % 5 := by
  rw [Fin.ext_iff]
  show 5 * y.val + x.val = q.val ↔ _
  omega

/-- Row and column of an entry. -/
def rowOf (q : Fin 25) : Fin 5 := ⟨q.val / 5, by omega⟩
def colOf (q : Fin 25) : Fin 5 := ⟨q.val % 5, by omega⟩

theorem laneIndex_rowOf_colOf (q : Fin 25) : laneIndex (rowOf q) (colOf q) = q :=
  laneIndex_eq_iff.mpr ⟨rfl, rfl⟩

/-- An inner loop over entries of its own, each updated from its own value. -/
theorem get_foldl_put (g : Fin 25 → U64 → U64) {L : List (Fin 25)} (hL : L.Nodup)
    (v : Vector U64 25) (q : Fin 25) :
    (L.foldl (fun v p => put v p (g p (v.get p))) v).get q
      = if q ∈ L then g q (v.get q) else v.get q := by
  have hput : ∀ (w : Vector U64 25) (p : Fin 25), put w p (g p (w.get p)) = w.set p (g p w[p]) := by
    intro w p
    apply Vector.ext
    intro i hi
    rw [put, Vector.getElem_setIfInBounds, Vector.getElem_set]
    rfl
  simp only [hput]
  exact Loops.foldl_set_entry g hL v q

/-- The same loop with its entries taken from an index. -/
theorem get_foldl_put_map (g : Fin 5 → U64 → U64) (index : Fin 5 → Fin 25)
    (hinj : Function.Injective index) (v : Vector U64 25) (q : Fin 25) :
    (∀ i, index i = q → ((List.finRange 5).foldl (fun v i => put v (index i)
        (g i (v.get (index i)))) v).get q = g i (v.get q))
      ∧ ((∀ i, index i ≠ q) → ((List.finRange 5).foldl (fun v i => put v (index i)
        (g i (v.get (index i)))) v).get q = v.get q) := by
  have hleft : Function.LeftInverse (Function.invFun index) index :=
    Function.leftInverse_invFun hinj
  have hnodup : ((List.finRange 5).map index).Nodup := (List.nodup_finRange 5).map hinj
  have hloop := get_foldl_put (fun p => g (Function.invFun index p)) hnodup v q
  rw [List.foldl_map] at hloop
  simp only [hleft _] at hloop
  constructor
  · rintro i rfl
    rw [hloop, if_pos (List.mem_map_of_mem (List.mem_finRange i)), hleft i]
  · intro hne
    rw [hloop, if_neg]
    simpa using hne

theorem laneIndex_injective_left (x : Fin 5) : Function.Injective fun y => laneIndex y x := by
  intro y y' h
  have := congrArg Fin.val h
  simp only [laneIndex] at this
  omega

theorem laneIndex_injective_right (y : Fin 5) : Function.Injective (laneIndex y) := by
  intro x x' h
  have := congrArg Fin.val h
  simp only [laneIndex] at this
  omega

/-- A nest of loops whose outer turns own disjoint classes of entries: an entry is what the
turn of its class makes of the array as it was. -/
theorem get_foldl_class (cls : Fin 25 → Fin 5) (step : Fin 5 → Vector U64 25 → Vector U64 25)
    (result : Vector U64 25 → Fin 25 → U64)
    (hown : ∀ k v q, cls q = k → (step k v).get q = result v q)
    (hframe : ∀ k v q, cls q ≠ k → (step k v).get q = v.get q)
    (hlocal : ∀ v v' q, (∀ p, cls p = cls q → v.get p = v'.get p) → result v q = result v' q)
    (v : Vector U64 25) (q : Fin 25) :
    ((List.finRange 5).foldl (fun v k => step k v) v).get q = result v q := by
  have hstep : ∀ k (v v' : Vector U64 25), (∀ p : Fin 25, cls p = k → v[p] = v'[p]) →
      ∀ p : Fin 25, cls p = k → (step k v)[p] = (step k v')[p] := by
    intro k v v' hv p hp
    have h := (hown k v p hp).trans ((hlocal v v' p fun p' hp' => hv p' (hp'.trans hp)).trans
      (hown k v' p hp).symm)
    exact h
  have hloop := (Loops.foldl_set_class cls step hframe hstep (List.nodup_finRange 5) v q).1
    (List.mem_finRange (cls q))
  exact hloop.trans (hown (cls q) v q rfl)

/-- Column parity, from the entries. -/
def parity (v : Vector U64 25) (x : Fin 5) : U64 :=
  v.get (laneIndex 0 x) ^^^ v.get (laneIndex 1 x) ^^^ v.get (laneIndex 2 x)
    ^^^ v.get (laneIndex 3 x) ^^^ v.get (laneIndex 4 x)

theorem get_thetaLoop (st : Vector U64 25) (q : Fin 25) :
    (thetaLoop st).get q = st.get q ^^^ (parity st (colOf q + 4)
      ^^^ (parity st (colOf q + 1)).rotateLeft 1) := by
  set t : Fin 5 → U64 := fun i => parity st (i + 4) ^^^ (parity st (i + 1)).rotateLeft 1 with ht
  have hbody : thetaLoop st = (List.finRange 5).foldl (fun st i =>
      (List.finRange 5).foldl (fun st y =>
        put st (laneIndex y i) (st.get (laneIndex y i) ^^^ t i)) st) st := by
    simp only [thetaLoop, get_ofFn, rotl64_eq _ (show 1 < 64 by omega), ht, parity]
  rw [hbody]
  refine get_foldl_class colOf (fun i st => (List.finRange 5).foldl (fun st y =>
    put st (laneIndex y i) (st.get (laneIndex y i) ^^^ t i)) st)
    (fun v q => v.get q ^^^ t (colOf q)) ?_ ?_ ?_ st q
  · rintro i v q rfl
    exact (get_foldl_put_map (fun _ x => x ^^^ t (colOf q)) (fun y => laneIndex y (colOf q))
      (laneIndex_injective_left _) v q).1 (rowOf q) (laneIndex_rowOf_colOf q)
  · intro i v q hq
    refine (get_foldl_put_map (fun _ x => x ^^^ t i) (fun y => laneIndex y i)
      (laneIndex_injective_left _) v q).2 ?_
    rintro y rfl
    exact hq (Fin.ext (laneIndex_eq_iff.mp rfl).2.symm)
  · intro v v' q hv
    rw [hv q rfl]

theorem get_chiLoop (st : Vector U64 25) (q : Fin 25) :
    (chiLoop st).get q = st.get q ^^^ (~~~ st.get (laneIndex (rowOf q) (colOf q + 1))
      &&& st.get (laneIndex (rowOf q) (colOf q + 2))) := by
  have hrow : ∀ y x, rowOf (laneIndex y x) = y := fun y x =>
    Fin.ext (laneIndex_eq_iff.mp rfl).1.symm
  refine get_foldl_class rowOf (fun y st => (List.finRange 5).foldl (fun st' i =>
    put st' (laneIndex y i) (st'.get (laneIndex y i)
      ^^^ (~~~ (Vector.ofFn fun i => st.get (laneIndex y i) : Vector U64 5).get (i + 1)
        &&& (Vector.ofFn fun i => st.get (laneIndex y i) : Vector U64 5).get (i + 2)))) st)
    (fun v q => v.get q ^^^ (~~~ v.get (laneIndex (rowOf q) (colOf q + 1))
      &&& v.get (laneIndex (rowOf q) (colOf q + 2)))) ?_ ?_ ?_ st q
  · rintro y v q rfl
    simp only [get_ofFn]
    exact (get_foldl_put_map (fun i x => x ^^^ (~~~ v.get (laneIndex (rowOf q) (i + 1))
      &&& v.get (laneIndex (rowOf q) (i + 2)))) (laneIndex (rowOf q))
      (laneIndex_injective_right _) v q).1 (colOf q) (laneIndex_rowOf_colOf q)
  · intro y v q hq
    simp only [get_ofFn]
    refine (get_foldl_put_map (fun i x => x ^^^ (~~~ v.get (laneIndex y (i + 1))
      &&& v.get (laneIndex y (i + 2)))) (laneIndex y)
      (laneIndex_injective_right _) v q).2 ?_
    rintro i rfl
    exact hq (hrow y i)
  · intro v v' q hv
    rw [hv q rfl, hv _ (hrow _ _), hv _ (hrow _ _)]

/-- The entry that π takes to entry `q`. -/
def piSource (q : Fin 25) : Fin 25 := laneIndex (colOf q) (colOf q + 3 * rowOf q)

/-- The tables walk backwards along π, with the offsets of ρ. -/
theorem tables_follow_pi : ∀ k : Fin 24,
    (if h : k.val = 0 then 1 else KECCAKF_PILN.get ⟨k.val - 1, by omega⟩)
        = piSource (KECCAKF_PILN.get k)
      ∧ KECCAKF_ROTC.get k = Keccak.rhoOffset (piSource (KECCAKF_PILN.get k)).val
          (colOf (KECCAKF_PILN.get k)).val
      ∧ KECCAKF_ROTC.get k < 64 := by
  decide +kernel

theorem PILN_nodup : ((List.finRange 24).map KECCAKF_PILN.get).Nodup := by
  decide +kernel

/-- Every entry but the first is on the walk. -/
theorem mem_PILN : ∀ q : Fin 25, q ≠ 0 → ∃ k, KECCAKF_PILN.get k = q := by
  decide +kernel

theorem zero_notMem_PILN : (0 : Fin 25) ∉ (List.finRange 24).map KECCAKF_PILN.get := by
  decide +kernel

theorem get_rhoPiLoop (st : Vector U64 25) (q : Fin 25) :
    (rhoPiLoop st).get q = (st.get (piSource q)).rotateLeft
      (Keccak.rhoOffset (piSource q).val (colOf q).val) := by
  set f : U64 → Fin 24 → U64 := fun t i => rotl64 t (KECCAKF_ROTC.get i) with hf
  have hloop : rhoPiLoop st
      = ((List.finRange 24).foldl (Loops.walkStep KECCAKF_PILN.get f) (st, st.get 1)).1 := by
    have hstep : (fun (s : Vector U64 25 × U64) (i : Fin 24) =>
        (put s.1 (KECCAKF_PILN.get i) (rotl64 s.2 (KECCAKF_ROTC.get i)),
          s.1.get (KECCAKF_PILN.get i))) = Loops.walkStep KECCAKF_PILN.get f := by
      funext s i
      refine Prod.ext ?_ rfl
      apply Vector.ext
      intro k hk
      rw [put, Vector.getElem_setIfInBounds, Loops.walkStep, Vector.getElem_set]
    rw [rhoPiLoop, ← hstep]
  obtain ⟨hnot, hmem⟩ := Loops.walk KECCAKF_PILN.get f (List.finRange 24) PILN_nodup st (st.get 1)
  rw [hloop]
  by_cases hq : q = 0
  · -- the first entry stays where it is and is not rotated
    subst hq
    have h0 := hnot 0 zero_notMem_PILN
    have hsource : piSource 0 = 0 := by decide
    have hoffset : Keccak.rhoOffset (piSource 0).val (colOf 0).val = 0 := by decide +kernel
    have hzero : (st.get 0).rotateLeft 0 = st.get 0 := by
      apply BitVec.eq_of_getLsbD_eq
      intro i hi
      simp [hi]
    rw [hoffset, hsource, hzero]
    exact h0
  · obtain ⟨k, rfl⟩ := mem_PILN q hq
    have hk := hmem k.val (by rw [List.length_finRange]; exact k.isLt)
    obtain ⟨hsource, hoffset, hlt⟩ := tables_follow_pi k
    simp only [List.getElem_finRange, Fin.cast_mk] at hk
    rw [← hoffset, ← hsource, ← rotl64_eq _ hlt]
    refine hk.trans ?_
    split <;> rfl

/-! ### The permutation -/

theorem lane_eq_get (A : Vector U64 25) (y x : Fin 5) :
    Keccak.lane A x.val y.val = A.get (laneIndex y x) := by
  have hx : x.val % 5 = x.val := Nat.mod_eq_of_lt x.isLt
  have hy : y.val % 5 = y.val := Nat.mod_eq_of_lt y.isLt
  simp only [Keccak.lane, hx, hy, Nat.add_comm x.val]
  rfl

theorem column_eq_parity (A : Vector U64 25) (x : Fin 5) : Keccak.column A x.val = parity A x := by
  rw [Keccak.column, parity]
  simp only [← lane_eq_get]
  rfl

/-- A coordinate of the standard, taken modulo 5, is one of `Fin 5`. -/
theorem lane_eq_get_mod (A : Vector U64 25) {a b : ℕ} {y x : Fin 5} (hx : a % 5 = x.val)
    (hy : b % 5 = y.val) : Keccak.lane A a b = A.get (laneIndex y x) := by
  rw [← lane_eq_get]
  simp only [Keccak.lane, hx, hy, Nat.mod_eq_of_lt x.isLt, Nat.mod_eq_of_lt y.isLt]

theorem column_mod (A : Vector U64 25) {a : ℕ} {x : Fin 5} (hx : a % 5 = x.val) :
    Keccak.column A a = parity A x := by
  rw [← column_eq_parity, Keccak.column, Keccak.column]
  simp only [Keccak.lane, hx, Nat.mod_eq_of_lt x.isLt]

theorem thetaLoop_eq (A : Vector U64 25) : thetaLoop A = Keccak.theta A := by
  apply Vector.ext
  intro i hi
  have hq := get_thetaLoop A ⟨i, hi⟩
  have hx : (i % 5 + 4) % 5 = (colOf ⟨i, hi⟩ + 4).val := rfl
  have hx' : (i % 5 + 1) % 5 = (colOf ⟨i, hi⟩ + 1).val := rfl
  rw [Keccak.theta, Keccak.getElem_ofLanes, column_mod A hx, column_mod A hx',
    ← Keccak.getElem_eq_lane A i hi]
  exact hq

theorem rhoPiLoop_eq (A : Vector U64 25) : rhoPiLoop A = Keccak.pi (Keccak.rho A) := by
  apply Vector.ext
  intro i hi
  have hq := get_rhoPiLoop A ⟨i, hi⟩
  have hx : (i % 5 + 3 * (i / 5)) % 5 = (colOf ⟨i, hi⟩ + 3 * rowOf ⟨i, hi⟩).val := by
    rw [Fin.val_add, Fin.val_mul]
    simp only [colOf, rowOf]
    omega
  have hoffset : Keccak.rhoOffset (i % 5 + 3 * (i / 5)) (i % 5)
      = Keccak.rhoOffset (piSource ⟨i, hi⟩).val (colOf ⟨i, hi⟩).val := by
    have hmod : (piSource ⟨i, hi⟩).val % 5 = (i % 5 + 3 * (i / 5)) % 5 := by
      rw [hx, piSource]
      simp only [laneIndex]
      omega
    simp only [Keccak.rhoOffset, hmod]
    rfl
  have hlane : Keccak.lane A (i % 5 + 3 * (i / 5)) (i % 5) = A.get (piSource ⟨i, hi⟩) :=
    lane_eq_get_mod A hx (Nat.mod_mod i 5)
  rw [Keccak.getElem_pi_rho A i hi, hoffset, hlane]
  exact hq

theorem chiLoop_eq (A : Vector U64 25) : chiLoop A = Keccak.chi A := by
  apply Vector.ext
  intro i hi
  have hq := get_chiLoop A ⟨i, hi⟩
  have hy : i / 5 % 5 = (rowOf ⟨i, hi⟩).val := Nat.mod_eq_of_lt (by omega)
  have hx : (i % 5 + 1) % 5 = (colOf ⟨i, hi⟩ + 1).val := rfl
  have hx' : (i % 5 + 2) % 5 = (colOf ⟨i, hi⟩ + 2).val := rfl
  rw [Keccak.chi, Keccak.getElem_ofLanes, ← Keccak.getElem_eq_lane A i hi,
    lane_eq_get_mod A hx hy, lane_eq_get_mod A hx' hy]
  exact hq

theorem RNDC_eq : ∀ r : Fin 24, KECCAKF_RNDC.get r = Keccak.roundConstant r.val := by
  decide +kernel

/-- The device permutes like FIPS 202. -/
theorem keccakF1600State_eq (A : Vector U64 25) : keccakF1600State A = Keccak.keccakF A := by
  have hround : ∀ (A : Vector U64 25) (r : Fin 24),
      put (chiLoop (rhoPiLoop (thetaLoop A))) 0
        ((chiLoop (rhoPiLoop (thetaLoop A))).get 0 ^^^ KECCAKF_RNDC.get r)
      = Keccak.round A r.val := by
    intro A r
    rw [thetaLoop_eq, rhoPiLoop_eq, chiLoop_eq, RNDC_eq, Keccak.round, Keccak.iota]
    apply Vector.ext
    intro i hi
    rw [put, Vector.getElem_setIfInBounds, Vector.getElem_set]
    rfl
  rw [keccakF1600State, Keccak.keccakF, ← List.map_coe_finRange_eq_range, List.foldl_map]
  simp only [hround]

/-- The device composes the five step mappings of FIPS 202 over 24 rounds, lane `(x, y)` being
word `x + 5y` of the state. -/
theorem keccak_f1600_state_is_fips202 (st : Vector U64 25) :
    keccakF1600State st = (List.range 24).foldl
      (fun A round => Keccak.iota (Keccak.chi (Keccak.pi (Keccak.rho (Keccak.theta A)))) round)
        st :=
  keccakF1600State_eq st

end Kernel
