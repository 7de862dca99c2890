/-
Bytes, little-endian words and buffers.

Every hash and every device buffer of a byte-oriented program is read through
the same few operations:

* `leByte`, `ofLe` — byte `i` of a word, and the word with given bytes;
* `bytesOfWords`, `wordsOfBytes` — the two views of an array of 64-bit words;
* `writeAt` — the loop `for i in 0..n { dst[off + i] = f(i) }` on a buffer,
  with the one lemma that says what it leaves behind;
* `bytesAt` — the bytes of a buffer from an offset on.
-/
import Mathlib.Tactic

abbrev Byte := BitVec 8
abbrev U16 := BitVec 16
abbrev U32 := BitVec 32
abbrev U64 := BitVec 64

-- the sizes that literal indices are used with
instance neZeroTwo : NeZero 2 := ⟨by decide⟩
instance neZeroFour : NeZero 4 := ⟨by decide⟩
instance neZeroSixteen : NeZero 16 := ⟨by decide⟩
instance neZeroTwentyFive : NeZero 25 := ⟨by decide⟩

namespace Bytes

/-- An array with one entry replaced. -/
def put {α : Type} {n : ℕ} (v : Vector α n) (i : Fin n) (x : α) : Vector α n :=
  v.setIfInBounds i x

theorem get_ofFn {α : Type} {n : ℕ} (f : Fin n → α) (i : Fin n) : (Vector.ofFn f).get i = f i :=
  Vector.getElem_ofFn i.isLt

theorem get_put {α : Type} {n : ℕ} (v : Vector α n) (i : Fin n) (x : α) (q : Fin n) :
    (put v i x).get q = if i = q then x else v.get q := by
  show (put v i x)[q.val] = _
  rw [put, Vector.getElem_setIfInBounds]
  simp only [Fin.ext_iff]
  rfl

/-! ### Bytes of a word -/

/-- Byte `i` of a word, least significant byte first. -/
def leByte {w : ℕ} (x : BitVec w) (i : ℕ) : Byte := (x >>> (8 * i)).setWidth 8

theorem getLsbD_leByte {w : ℕ} (x : BitVec w) (i j : ℕ) :
    (leByte x i).getLsbD j = (decide (j < 8) && x.getLsbD (8 * i + j)) := by
  rw [leByte, BitVec.getLsbD_setWidth, BitVec.getLsbD_ushiftRight]

/-- The word whose byte `i` is `b i`, for the `n` bytes `b 0, …, b (n - 1)`. -/
def ofLe {w : ℕ} (n : ℕ) (b : ℕ → Byte) : BitVec w :=
  (List.range n).foldl (fun v i => v ||| (b i).setWidth w <<< (8 * i)) 0

theorem getLsbD_ofLe {w : ℕ} (n : ℕ) (b : ℕ → Byte) (k : ℕ) :
    (ofLe n b : BitVec w).getLsbD k
      = (decide (k < w) && decide (k < 8 * n) && (b (k / 8)).getLsbD (k % 8)) := by
  induction n with
  | zero => simp [ofLe]
  | succ n ih =>
    rw [ofLe, List.range_succ, List.foldl_append, ← ofLe]
    simp only [List.foldl_cons, List.foldl_nil, BitVec.getLsbD_or, ih,
      BitVec.getLsbD_shiftLeft, BitVec.getLsbD_setWidth]
    by_cases hk : k < 8 * n
    · simp [hk, show k < 8 * (n + 1) by omega]
    · by_cases hk' : k < 8 * (n + 1)
      · have hd : k / 8 = n := by omega
        have hm : k - 8 * n = k % 8 := by omega
        simp only [hk, hk', hd, hm, decide_false, decide_true]
        simp only [Bool.and_false, Bool.false_and, Bool.false_or, Bool.not_false, Bool.and_true]
        by_cases hw : k < w
        · have : k % 8 < w := by omega
          simp [hw, this]
        · simp [hw]
      · have hz : (b n).getLsbD (k - 8 * n) = false :=
          BitVec.getLsbD_of_ge _ _ (by omega)
        simp [hk, hk', hz]

/-- Reading back the bytes of a word gives the word. -/
theorem ofLe_leByte {w n : ℕ} (x : BitVec w) (h : w ≤ 8 * n) : ofLe n (leByte x) = x := by
  apply BitVec.eq_of_getLsbD_eq
  intro k hk
  rw [getLsbD_ofLe, getLsbD_leByte]
  have h8 : 8 * (k / 8) + k % 8 = k := by omega
  simp [hk, show k < 8 * n by omega, Nat.mod_lt k (show 0 < 8 by decide), h8]

/-- Byte `i` of the word with bytes `b` is `b i`. -/
theorem leByte_ofLe {w n i : ℕ} (b : ℕ → Byte) (hi : i < n) (h : 8 * n ≤ w) :
    leByte (ofLe n b : BitVec w) i = b i := by
  apply BitVec.eq_of_getLsbD_eq
  intro j hj
  rw [getLsbD_leByte, getLsbD_ofLe]
  have hd : (8 * i + j) / 8 = i := by omega
  have hm : (8 * i + j) % 8 = j := by omega
  simp [hj, hd, hm, show 8 * i + j < w by omega, show 8 * i + j < 8 * n by omega]

theorem ofLe_congr {w n : ℕ} {b c : ℕ → Byte} (h : ∀ i < n, b i = c i) :
    (ofLe n b : BitVec w) = ofLe n c := by
  unfold ofLe
  apply List.foldl_ext
  intro v i hi
  rw [h i (List.mem_range.mp hi)]

/-! ### Arrays of words and of bytes -/

/-- The little-endian bytes of an array of 64-bit words. -/
def bytesOfWords {n : ℕ} (v : Vector U64 n) : Vector Byte (8 * n) :=
  Vector.ofFn fun i => leByte v[i.val / 8] (i.val % 8)

@[simp] theorem getElem_bytesOfWords {n : ℕ} (v : Vector U64 n) (i : ℕ) (h : i < 8 * n) :
    (bytesOfWords v)[i] = leByte v[i / 8] (i % 8) := by
  simp [bytesOfWords]

/-- The 64-bit words of an array of bytes, each read little-endian. -/
def wordsOfBytes {n : ℕ} (b : Vector Byte (8 * n)) : Vector U64 n :=
  Vector.ofFn fun i => ofLe 8 fun k => b[8 * i.val + k]?.getD 0

@[simp] theorem getElem_wordsOfBytes {n : ℕ} (b : Vector Byte (8 * n)) (i : ℕ) (h : i < n) :
    (wordsOfBytes b)[i] = ofLe 8 fun k => b[8 * i + k]?.getD 0 := by
  simp [wordsOfBytes]

theorem wordsOfBytes_bytesOfWords {n : ℕ} (v : Vector U64 n) :
    wordsOfBytes (bytesOfWords v) = v := by
  apply Vector.ext
  intro i hi
  rw [getElem_wordsOfBytes]
  conv_rhs => rw [← ofLe_leByte v[i] (n := 8) (by norm_num)]
  apply ofLe_congr
  intro k hk
  have hd : (8 * i + k) / 8 = i := by omega
  have hm : (8 * i + k) % 8 = k := by omega
  rw [Vector.getElem?_eq_getElem (by omega), Option.getD_some, getElem_bytesOfWords]
  simp only [hd, hm]

theorem bytesOfWords_wordsOfBytes {n : ℕ} (b : Vector Byte (8 * n)) :
    bytesOfWords (wordsOfBytes b) = b := by
  apply Vector.ext
  intro i hi
  rw [getElem_bytesOfWords, getElem_wordsOfBytes, leByte_ofLe _ (by omega) (by norm_num)]
  have h8 : 8 * (i / 8) + i % 8 = i := by omega
  simp [h8, hi]

/-! ### Buffers -/

/-- A buffer is addressed by offset; a kernel sees no length. -/
abbrev Buffer (α : Type*) := ℕ → α

/-- The loop `for i in 0..n { dst[off + i] = f(i) }`. -/
def writeAt {α : Type*} (dst : Buffer α) (off n : ℕ) (f : ℕ → α) : Buffer α :=
  (List.range n).foldl (fun m i => Function.update m (off + i) (f i)) dst

theorem writeAt_apply {α : Type*} (dst : Buffer α) (off n : ℕ) (f : ℕ → α) (a : ℕ) :
    writeAt dst off n f a = if off ≤ a ∧ a < off + n then f (a - off) else dst a := by
  induction n with
  | zero => simp [writeAt, show ¬ (off ≤ a ∧ a < off) by omega]
  | succ n ih =>
    rw [writeAt, List.range_succ, List.foldl_append, ← writeAt]
    simp only [List.foldl_cons, List.foldl_nil]
    by_cases ha : a = off + n
    · subst ha
      simp
    · rw [Function.update_of_ne ha, ih]
      by_cases h : off ≤ a ∧ a < off + n
      · rw [if_pos h, if_pos (by omega)]
      · rw [if_neg h, if_neg (by omega)]

theorem writeAt_of_mem {α : Type*} {dst : Buffer α} {off n : ℕ} {f : ℕ → α} {i : ℕ} (h : i < n) :
    writeAt dst off n f (off + i) = f i := by
  rw [writeAt_apply, if_pos (by omega), Nat.add_sub_cancel_left]

theorem writeAt_of_notMem {α : Type*} {dst : Buffer α} {off n : ℕ} {f : ℕ → α} {a : ℕ}
    (h : a < off ∨ off + n ≤ a) : writeAt dst off n f a = dst a := by
  rw [writeAt_apply, if_neg (by omega)]

/-- Writes to disjoint ranges. -/
theorem writeAt_comm {α : Type*} (dst : Buffer α) {off n off' m : ℕ} (f g : ℕ → α)
    (h : off + n ≤ off' ∨ off' + m ≤ off) :
    writeAt (writeAt dst off n f) off' m g = writeAt (writeAt dst off' m g) off n f := by
  funext a
  rw [writeAt_apply, writeAt_apply, writeAt_apply, writeAt_apply]
  by_cases hoff : off ≤ a ∧ a < off + n
  · rw [if_pos hoff, if_pos hoff, if_neg (by omega)]
  · rw [if_neg hoff, if_neg hoff]

theorem writeAt_congr {α : Type*} {dst : Buffer α} {off n : ℕ} {f g : ℕ → α}
    (h : ∀ i < n, f i = g i) : writeAt dst off n f = writeAt dst off n g := by
  funext a
  rw [writeAt_apply, writeAt_apply]
  split
  · exact h _ (by omega)
  · rfl

/-- Rows of `w` entries, written one after the other. -/
theorem foldl_writeAt_rows {α : Type*} (dst : Buffer α) (off n : ℕ) {w : ℕ} (hw : 0 < w)
    (f : ℕ → ℕ → α) :
    (List.range n).foldl (fun m i => writeAt m (off + i * w) w (f i)) dst
      = writeAt dst off (n * w) fun k => f (k / w) (k % w) := by
  induction n with
  | zero =>
    rw [Nat.zero_mul]
    rfl
  | succ n ih =>
    rw [List.range_succ, List.foldl_append, ih, List.foldl_cons, List.foldl_nil]
    funext a
    rw [writeAt_apply, writeAt_apply, writeAt_apply, Nat.add_mul, Nat.one_mul]
    by_cases hlast : off + n * w ≤ a ∧ a < off + n * w + w
    · have hk : a - off = a - (off + n * w) + w * n := by
        rw [Nat.mul_comm w]
        omega
      have hd : (a - off) / w = n := by
        rw [hk, Nat.add_mul_div_left _ _ hw, Nat.div_eq_of_lt (by omega), Nat.zero_add]
      have hm : (a - off) % w = a - (off + n * w) := by
        rw [hk, Nat.add_mul_mod_self_left, Nat.mod_eq_of_lt (by omega)]
      rw [if_pos hlast, if_pos (by omega), hd, hm]
    · rw [if_neg hlast]
      exact if_congr (by omega) rfl rfl

/-- `n` bytes of a buffer, from an offset on. -/
def bytesAt (buffer : Buffer Byte) (offset n : ℕ) : List Byte :=
  (List.range n).map fun i => buffer (offset + i)

@[simp] theorem length_bytesAt (buffer : Buffer Byte) (offset n : ℕ) :
    (bytesAt buffer offset n).length = n := by
  simp [bytesAt]

theorem getD_bytesAt (buffer : Buffer Byte) (offset n i : ℕ) :
    (bytesAt buffer offset n).getD i 0 = if i < n then buffer (offset + i) else 0 := by
  rw [bytesAt, List.getD_eq_getElem?_getD, List.getElem?_map]
  by_cases h : i < n
  · simp [h]
  · simp [h]

theorem bytesAt_congr {b b' : Buffer Byte} {offset offset' n : ℕ}
    (h : ∀ i < n, b (offset + i) = b' (offset' + i)) :
    bytesAt b offset n = bytesAt b' offset' n :=
  List.map_congr_left fun i hi => h i (List.mem_range.mp hi)

theorem bytesAt_add (buffer : Buffer Byte) (offset n m : ℕ) :
    bytesAt buffer offset (n + m) = bytesAt buffer offset n ++ bytesAt buffer (offset + n) m := by
  rw [bytesAt, List.range_add, List.map_append, List.map_map]
  simp only [bytesAt, Function.comp_def, Nat.add_assoc]

/-- What has been written is read back. -/
theorem bytesAt_writeAt (dst : Buffer Byte) (off n : ℕ) (f : ℕ → Byte) :
    bytesAt (writeAt dst off n f) off n = (List.range n).map f :=
  List.map_congr_left fun _ hi => writeAt_of_mem (List.mem_range.mp hi)

theorem bytesAt_writeAt_of_disjoint {dst : Buffer Byte} {off n : ℕ} {f : ℕ → Byte} {a m : ℕ}
    (h : a + m ≤ off ∨ off + n ≤ a) : bytesAt (writeAt dst off n f) a m = bytesAt dst a m := by
  apply bytesAt_congr
  intro i hi
  exact writeAt_of_notMem (by omega)

/-- What is written behind `n` bytes is appended to them. -/
theorem bytesAt_writeAt_append (dst : Buffer Byte) (f : ℕ → Byte) {off n m k : ℕ}
    (hk : k = n + m) : bytesAt (writeAt dst (off + n) m f) off k
      = bytesAt dst off n ++ (List.range m).map f := by
  rw [hk, bytesAt_add, bytesAt_writeAt_of_disjoint (by omega), bytesAt_writeAt]

end Bytes
