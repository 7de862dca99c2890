/-
The sponge of FIPS 202 and cSHAKE256 of SP 800-185, on byte strings.

* `roundL` — a round of the permutation on lists of lanes, which evaluates;
* `pad`, `absorb`, `squeeze` — the sponge over Keccak-f[1600] with a rate of 136
  bytes;
* `leftEncode`, `encodeString`, `bytepad` — the encodings of SP 800-185;
* `cshake256` — the function itself.

Absorbing is compositional in whole blocks (`absorb_append`), and the padding of
a message does not see the whole blocks in front of it (`pad_append`), so the
customisation can be absorbed in advance: `cshake256_eq` takes the output from
`prefixState`.
-/
import Mathlib.Data.List.GetD
import VelkarMiner.Keccak

namespace Keccak

/-! ### The permutation on lists of lanes -/

/-- Lane `(x, y)` of a list of lanes. -/
def laneL (A : List U64) (x y : ℕ) : U64 := A.getD (x % 5 + 5 * (y % 5)) 0

/-- The list with lane `(x, y)` equal to `f x y`. -/
def ofLanesL (f : ℕ → ℕ → U64) : List U64 := (List.range 25).map fun i => f (i % 5) (i / 5)

def columnL (A : List U64) (x : ℕ) : U64 :=
  laneL A x 0 ^^^ laneL A x 1 ^^^ laneL A x 2 ^^^ laneL A x 3 ^^^ laneL A x 4

def thetaL (A : List U64) : List U64 :=
  ofLanesL fun x y => laneL A x y ^^^ (columnL A (x + 4) ^^^ (columnL A (x + 1)).rotateLeft 1)

/-- ρ and π in one pass. -/
def piRhoL (A : List U64) : List U64 :=
  ofLanesL fun x y => (laneL A (x + 3 * y) x).rotateLeft (rhoOffset (x + 3 * y) x)

def chiL (A : List U64) : List U64 :=
  ofLanesL fun x y => laneL A x y ^^^ (~~~ laneL A (x + 1) y &&& laneL A (x + 2) y)

def roundL (A : List U64) (ir : ℕ) : List U64 :=
  let B := chiL (piRhoL (thetaL A))
  B.set 0 (B.getD 0 0 ^^^ roundConstant ir)

theorem laneL_toList (A : Lanes) (x y : ℕ) : laneL A.toList x y = lane A x y := by
  have h : x % 5 + 5 * (y % 5) < 25 := by omega
  simp [laneL, lane, List.getD_eq_getElem?_getD, h]

theorem toList_ofLanes (f : ℕ → ℕ → U64) : (ofLanes f).toList = ofLanesL f := by
  apply List.ext_getElem
  · simp [ofLanesL]
  · intro i h₁ h₂
    simp [ofLanesL]

theorem toList_theta (A : Lanes) : (theta A).toList = thetaL A.toList := by
  simp only [theta, toList_ofLanes, thetaL, column, columnL, laneL_toList]

theorem toList_pi_rho (A : Lanes) : (pi (rho A)).toList = piRhoL A.toList := by
  have hlanes : pi (rho A)
      = ofLanes fun x y => (lane A (x + 3 * y) x).rotateLeft (rhoOffset (x + 3 * y) x) := by
    apply Vector.ext
    intro i hi
    rw [getElem_pi_rho A i hi, getElem_ofLanes]
  simp only [hlanes, toList_ofLanes, piRhoL, laneL_toList]

theorem toList_chi (A : Lanes) : (chi A).toList = chiL A.toList := by
  simp only [chi, toList_ofLanes, chiL, laneL_toList]

theorem toList_round (A : Lanes) (ir : ℕ) : (round A ir).toList = roundL A.toList ir := by
  simp only [round, iota, roundL, ← toList_theta, ← toList_pi_rho, ← toList_chi]
  simp [List.getD_eq_getElem?_getD, Vector.toList_set]

/-- The permutation, lane list by lane list. -/
theorem toList_keccakF (A : Lanes) :
    (keccakF A).toList = (List.range 24).foldl roundL A.toList := by
  have hrun : ∀ (rs : List ℕ) (A : Lanes),
      (rs.foldl round A).toList = rs.foldl roundL A.toList := by
    intro rs
    induction rs with
    | nil => intro A; rfl
    | cons ir rs ih =>
      intro A
      rw [List.foldl_cons, List.foldl_cons, ih, toList_round]
  exact hrun _ A

end Keccak

namespace Cshake

open Keccak Bytes

/-! ### The sponge -/

/-- Bytes of a block: 1600 bits less the capacity of 512. -/
def rate : ℕ := 136

/-- A block of bytes XORed into the front of a state. -/
def xorBlock (A : Lanes) (block : List Byte) : Lanes :=
  A.mapIdx fun i w => w ^^^ ofLe 8 fun k => block.getD (8 * i + k) 0

/-- Block `j` of a byte string. -/
def blockOf (m : List Byte) (j : ℕ) : List Byte := (m.drop (rate * j)).take rate

/-- The state after the whole blocks of a byte string. -/
def absorb (A : Lanes) (m : List Byte) : Lanes :=
  (List.range (m.length / rate)).foldl (fun A j => keccakF (xorBlock A (blockOf m j))) A

/-- The suffix of domain byte `d` and `pad10*1` for a message of `n` bytes. -/
def padding (d : Byte) (n : ℕ) : List Byte :=
  if n % rate + 1 = rate then [d ||| 0x80#8]
  else d :: List.replicate (rate - 2 - n % rate) 0 ++ [0x80#8]

/-- A message with its domain bits, padded to whole blocks. -/
def pad (d : Byte) (m : List Byte) : List Byte := m ++ padding d m.length

/-- The first `n` bytes of output from a state. -/
def squeeze (n : ℕ) (A : Lanes) : List Byte :=
  ((List.range ((n + rate - 1) / rate)).flatMap fun i =>
    (bytesOfWords (Nat.iterate keccakF i A)).toList.take rate).take n

/-! ### Encodings -/

/-- `left_encode`: the big-endian bytes of `x` after their number. -/
def leftEncode (x : ℕ) : List Byte :=
  let n := Nat.log2 x / 8 + 1
  BitVec.ofNat 8 n :: ((List.range n).reverse.map fun i => BitVec.ofNat 8 (x / 256 ^ i))

def encodeString (S : List Byte) : List Byte := leftEncode (8 * S.length) ++ S

def bytepad (X : List Byte) (w : ℕ) : List Byte :=
  let z := leftEncode w ++ X
  z ++ List.replicate ((w - z.length % w) % w) 0

/-- The first block, or blocks, of cSHAKE256: function name and customisation. -/
def domainBlock (N S : List Byte) : List Byte := bytepad (encodeString N ++ encodeString S) rate

/-- cSHAKE256 of `X` with `n` bytes of output, function name `N` and customisation
`S`; SHAKE256 when both are empty. -/
def cshake256 (n : ℕ) (N S X : List Byte) : List Byte :=
  if N = [] ∧ S = [] then squeeze n (absorb (Vector.replicate 25 0) (pad 0x1f#8 X))
  else squeeze n (absorb (Vector.replicate 25 0) (pad 0x04#8 (domainBlock N S ++ X)))

/-- The state after the domain blocks. -/
def prefixState (N S : List Byte) : Lanes := absorb (Vector.replicate 25 0) (domainBlock N S)

/-! ### Absorbing block by block -/

theorem blockOf_append_left {p m : List Byte} {k j : ℕ} (hp : p.length = rate * k) (hj : j < k) :
    blockOf (p ++ m) j = blockOf p j := by
  have hle : rate * j + rate ≤ rate * k := Nat.mul_le_mul_left rate hj
  have hd : rate * j ≤ p.length := by omega
  rw [blockOf, blockOf, List.drop_append_of_le_length hd, List.take_append_of_le_length]
  rw [List.length_drop]
  omega

theorem blockOf_append_right {p m : List Byte} {k : ℕ} (hp : p.length = rate * k) (j : ℕ) :
    blockOf (p ++ m) (k + j) = blockOf m j := by
  rw [blockOf, blockOf, Nat.mul_add, ← List.drop_drop, ← hp, List.drop_left]

/-- Whole blocks in front are absorbed first. -/
theorem absorb_append {p : List Byte} {k : ℕ} (hp : p.length = rate * k) (A : Lanes)
    (m : List Byte) : absorb A (p ++ m) = absorb (absorb A p) m := by
  have hr : 0 < rate := by decide
  have hlen : (p ++ m).length / rate = k + m.length / rate := by
    rw [List.length_append, hp, Nat.mul_add_div hr]
  have hk : p.length / rate = k := by rw [hp, Nat.mul_div_cancel_left k hr]
  have hfirst : (List.range k).foldl (fun A j => keccakF (xorBlock A (blockOf (p ++ m) j))) A
      = absorb A p := by
    rw [absorb, hk]
    apply List.foldl_ext
    intro A' j hj
    rw [blockOf_append_left hp (List.mem_range.mp hj)]
  rw [absorb, hlen, List.range_add, List.foldl_append, hfirst, List.foldl_map]
  simp only [blockOf_append_right hp]
  rfl

theorem absorb_block {b : List Byte} (hb : b.length = rate) (A : Lanes) :
    absorb A b = keccakF (xorBlock A b) := by
  have hblock : blockOf b 0 = b := by
    rw [blockOf, Nat.mul_zero, List.drop_zero, ← hb, List.take_length]
  rw [absorb, hb, Nat.div_self (by decide), List.range_one, List.foldl_cons, List.foldl_nil, hblock]

/-- The padding of a message does not depend on the whole blocks in front of it. -/
theorem pad_append {p : List Byte} {k : ℕ} (hp : p.length = rate * k) (d : Byte)
    (m : List Byte) : pad d (p ++ m) = p ++ pad d m := by
  have hmod : (p ++ m).length % rate = m.length % rate := by
    rw [List.length_append, hp, Nat.mul_add_mod]
  rw [pad, pad, List.append_assoc, padding, padding, hmod]

theorem length_pad (d : Byte) (m : List Byte) :
    (pad d m).length = rate * (m.length / rate + 1) := by
  have hm : m.length % rate < rate := Nat.mod_lt _ (by decide)
  have hdiv := Nat.div_add_mod m.length rate
  have hlen : (pad d m).length = m.length - m.length % rate + rate := by
    rw [pad, List.length_append, padding]
    split
    · rename_i h
      rw [List.length_singleton]
      omega
    · rename_i h
      simp only [List.cons_append, List.length_cons, List.length_append, List.length_replicate,
        List.length_nil]
      omega
  rw [hlen, Nat.mul_add, Nat.mul_one]
  omega

theorem length_bytepad {w : ℕ} (hw : 0 < w) (X : List Byte) :
    ∃ k, (bytepad X w).length = w * k := by
  set z := leftEncode w ++ X with hzdef
  have hz := Nat.mod_lt z.length hw
  have hdiv := Nat.div_add_mod z.length w
  have hlen : (bytepad X w).length = z.length + (w - z.length % w) % w := by
    rw [bytepad, ← hzdef, List.length_append, List.length_replicate]
  by_cases h0 : z.length % w = 0
  · refine ⟨z.length / w, ?_⟩
    rw [hlen, h0, Nat.sub_zero, Nat.mod_self]
    omega
  · refine ⟨z.length / w + 1, ?_⟩
    rw [hlen, Nat.mod_eq_of_lt (by omega), Nat.mul_add, Nat.mul_one]
    omega

/-- With a customisation, the output comes from the state after the domain blocks. -/
theorem cshake256_eq {N S : List Byte} (h : ¬ (N = [] ∧ S = [])) (n : ℕ) (X : List Byte) :
    cshake256 n N S X = squeeze n (absorb (prefixState N S) (pad 0x04#8 X)) := by
  obtain ⟨k, hk⟩ := length_bytepad (show 0 < rate by decide) (encodeString N ++ encodeString S)
  rw [cshake256, if_neg h, domainBlock, pad_append hk, absorb_append hk]
  rfl

theorem squeeze_of_le {n : ℕ} (h₀ : 0 < n) (hn : n ≤ rate) (A : Lanes) :
    squeeze n A = (bytesOfWords A).toList.take n := by
  have hone : (n + rate - 1) / rate = 1 := by
    have hr : rate = 136 := rfl
    rw [hr] at hn ⊢
    omega
  rw [squeeze, hone, List.range_one, List.flatMap_singleton, List.take_take, Nat.min_eq_left hn]
  rfl

/-- A message shorter than a block costs one permutation after the domain. -/
theorem cshake256_short {N S : List Byte} (h : ¬ (N = [] ∧ S = [])) {n : ℕ} (h₀ : 0 < n)
    (hn : n ≤ rate) {X : List Byte} (hX : X.length < rate) :
    cshake256 n N S X
      = (bytesOfWords (keccakF (xorBlock (prefixState N S) (pad 0x04#8 X)))).toList.take n := by
  have hlen : (pad 0x04#8 X).length = rate := by
    rw [length_pad, Nat.div_eq_of_lt hX, Nat.zero_add, Nat.mul_one]
  rw [cshake256_eq h, absorb_block hlen, squeeze_of_le h₀ hn]

/-! ### Blocks of words -/

/-- The little-endian bytes of a list of words. -/
def wordBytes (ws : List U64) : List Byte := ws.flatMap fun x => (List.range 8).map (leByte x)

theorem wordBytes_append (ws vs : List U64) : wordBytes (ws ++ vs) = wordBytes ws ++ wordBytes vs :=
  List.flatMap_append

theorem length_wordBytes (ws : List U64) : (wordBytes ws).length = 8 * ws.length := by
  induction ws with
  | nil => rfl
  | cons w ws ih =>
    rw [wordBytes, List.flatMap_cons, ← wordBytes, List.length_append, ih]
    simp only [List.length_map, List.length_range, List.length_cons]
    omega

theorem getD_wordBytes (ws : List U64) {i k : ℕ} (hk : k < 8) :
    (wordBytes ws).getD (8 * i + k) 0 = leByte (ws.getD i 0) k := by
  induction ws generalizing i with
  | nil => simp [wordBytes, leByte]
  | cons w ws ih =>
    have hsplit : wordBytes (w :: ws) = (List.range 8).map (leByte w) ++ wordBytes ws := by
      rw [wordBytes, List.flatMap_cons, ← wordBytes]
    have h8 : ((List.range 8).map (leByte w)).length = 8 := by simp
    cases i with
    | zero =>
      rw [hsplit, List.getD_append _ _ _ _ (by rw [h8]; omega)]
      simp [List.getD_eq_getElem?_getD, hk]
    | succ i =>
      rw [hsplit, List.getD_append_right _ _ _ _ (by rw [h8]; omega), h8, List.getD_cons_succ,
        show 8 * (i + 1) + k - 8 = 8 * i + k by omega, ih]

/-- Words XORed into the front of a state, lane by lane. -/
def xorLanes (A : Lanes) (ws : List U64) : Lanes := A.mapIdx fun i w => w ^^^ ws.getD i 0

@[simp] theorem getElem_xorLanes (A : Lanes) (ws : List U64) (i : ℕ) (hi : i < 25) :
    (xorLanes A ws)[i] = A[i] ^^^ ws.getD i 0 :=
  Vector.getElem_mapIdx hi

/-- XORing the bytes of words into a state XORs the words into its lanes. -/
theorem xorBlock_wordBytes (A : Lanes) (ws : List U64) :
    xorBlock A (wordBytes ws) = xorLanes A ws := by
  apply Vector.ext
  intro i hi
  have hword : (ofLe 8 fun k => (wordBytes ws).getD (8 * i + k) 0) = ws.getD i 0 := by
    rw [← ofLe_leByte (ws.getD i 0) (n := 8) (by norm_num)]
    apply ofLe_congr
    intro k hk
    exact getD_wordBytes ws hk
  rw [xorBlock, Vector.getElem_mapIdx, getElem_xorLanes, hword]

/-- A tail XORed in first, where the words that follow leave room for it. -/
theorem xorLanes_xorLanes (A : Lanes) (ws tail : List U64) :
    xorLanes (xorLanes A (List.replicate ws.length 0 ++ tail)) ws = xorLanes A (ws ++ tail) := by
  apply Vector.ext
  intro i hi
  rw [getElem_xorLanes, getElem_xorLanes, getElem_xorLanes, BitVec.xor_assoc]
  congr 1
  by_cases h : i < ws.length
  · have hz : (List.replicate ws.length (0 : U64) ++ tail).getD i 0 = 0 := by
      rw [List.getD_append _ _ _ _ (by simpa using h)]
      simp [List.getD_eq_getElem?_getD, h]
    rw [hz, List.getD_append _ _ _ _ h]
    exact BitVec.zero_xor
  · have hge : ws.length ≤ i := by omega
    rw [List.getD_append_right _ _ _ _ (by simpa using hge), List.length_replicate,
      List.getD_append_right _ _ _ _ hge, List.getD_eq_default _ _ hge]
    exact BitVec.xor_zero

theorem toList_bytesOfWords {n : ℕ} (v : Vector U64 n) :
    (bytesOfWords v).toList = wordBytes v.toList := by
  apply List.ext_getElem
  · rw [length_wordBytes]
    simp
  · intro i h₁ h₂
    have hi : i < 8 * n := by simpa using h₁
    have hget := getD_wordBytes v.toList (i := i / 8) (k := i % 8) (Nat.mod_lt i (by decide))
    rw [Nat.div_add_mod] at hget
    rw [← List.getD_eq_getElem _ 0 h₂, hget]
    have hd : i / 8 < n := by omega
    simp [List.getD_eq_getElem?_getD, hd]

/-- A message of words shorter than a block, with its padding given as words. -/
theorem cshake256_wordBytes {N S : List Byte} (h : ¬ (N = [] ∧ S = [])) {n : ℕ} (h₀ : 0 < n)
    (hn : n ≤ rate) {ws tail : List U64} (hlen : ws.length < 17)
    (htail : padding 0x04#8 (8 * ws.length) = wordBytes tail) :
    cshake256 n N S (wordBytes ws)
      = (bytesOfWords (keccakF (xorLanes (prefixState N S) (ws ++ tail)))).toList.take n := by
  have hshort : (wordBytes ws).length < rate := by
    rw [length_wordBytes]
    show 8 * ws.length < 136
    omega
  have hpad : pad 0x04#8 (wordBytes ws) = wordBytes (ws ++ tail) := by
    rw [pad, length_wordBytes, htail, wordBytes_append]
  rw [cshake256_short h h₀ hn hshort, hpad, xorBlock_wordBytes]

end Cshake
