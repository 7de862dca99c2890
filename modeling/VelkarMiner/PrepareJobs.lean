/-
The preparation kernel (`velkar_prepare_jobs` of `src/argon2_kernel.cl`).

The kernel goes through the first three stages of a nonce on its own: Keccak on
words, the matrix stage on the packed matrix of the constants buffer, with `uint`
sums where the host has `u16`.  It leaves a row of 192 bytes.

* `heavyHashWords_eq`, `matrixHeavyHashWords_eq` — its stages are the host's;
* `velkarPrepareJobs_spec` — its row is the `preparedRow` of the nonce.
-/
import VelkarMiner.FirstBlocks
import VelkarMiner.KernelKeccak
import VelkarMiner.Loops
import VelkarMiner.MatrixProduct
import VelkarMiner.SpongeStates

open Bytes

namespace Kernel

/-! ### The stages -/

def POW_INITIAL_STATE : Vector U64 25 :=
  Vector.ofFn fun i =>
    [1242148031264380989, 3008272977830772284, 2188519011337848018, 1992179434288343456,
      8876506674959887717, 5399642050693751366, 1745875063082670864, 8605242046444978844,
      17936695144567157056, 3343109343542796272, 1123092876221303306, 4963925045340115282,
      17037383077651887893, 16629644495023626889, 12833675776649114147, 3784524041015224902,
      1082795874807940378, 13952716920571277634, 13411128033953605860, 15060696040649351053,
      9928834659948351306, 5237849264682708699, 12825353012139217522, 6706187291358897596,
      196324915476054915].getD i.val 0

def HEAVY_INITIAL_STATE : Vector U64 25 :=
  Vector.ofFn fun i =>
    [4239941492252378377, 8746723911537738262, 8796936657246353646, 1272090201925444760,
      16654558671554924250, 8270816933120786537, 13907396207649043898, 6782861118970774626,
      9239690602118867528, 11582319943599406348, 17596056728278508070, 15212962468105129023,
      7812475424661425213, 3370482334374859748, 5690099369266491460, 8596393687355028144,
      570094237299545110, 9119540418498120711, 16901969272480492857, 13372017233735502424,
      14372891883993151831, 5171152063242093102, 10573107899694386186, 6096431547456407061,
      1592359455985097269].getD i.val 0

/-- `store_u256_private`, and the stores of four words byte by byte. -/
def storeWords (dst : Buffer Byte) (off : ℕ) (words : Vector U64 4) : Buffer Byte :=
  (List.range 4).foldl (fun dst i =>
    writeAt dst (off + i * 8) 8 fun b => (words.toList.getD i 0 >>> (8 * b)).setWidth 8) dst

theorem four_le_twentyFive : 4 ≤ 25 := by omega

/-- The loop `state[i] ^= words[i]` over four words. -/
def xorFront (state : Vector U64 25) (words : Vector U64 4) : Vector U64 25 :=
  (List.finRange 4).foldl (fun state i =>
    put state (Fin.castLE four_le_twentyFive i)
      (state.get (Fin.castLE four_le_twentyFive i) ^^^ words.get i)) state

/-- The loop `out[i] = state[i]` over four words. -/
def front (state : Vector U64 25) : Vector U64 4 :=
  Vector.ofFn fun i => state.get (Fin.castLE four_le_twentyFive i)

def loadMatrixValue (constants : Buffer Byte) (row col : ℕ) : U16 :=
  let offset := 72 + (row * 64 + col) * 2
  (constants offset).setWidth 16 ||| (constants (offset + 1)).setWidth 16 <<< 8

def heavyHashWords (inWords : Vector U64 4) : Vector U64 4 :=
  front (keccakF1600State (xorFront HEAVY_INITIAL_STATE inWords))

/-- The loop over the columns, for the rows `2 i` and `2 i + 1`. -/
def rowSums (constants nibbles : Buffer Byte) (i : ℕ) : U32 × U32 :=
  (List.range 64).foldl (fun sum j =>
    let elem := nibbles j
    (sum.1 + (loadMatrixValue constants (2 * i) j).setWidth 32 * elem.setWidth 32,
      sum.2 + (loadMatrixValue constants (2 * i + 1) j).setWidth 32 * elem.setWidth 32)) (0, 0)

/-- `uninit` is what the private arrays hold before they are written. -/
def matrixHeavyHashWords (uninit constants : Buffer Byte) (inputWords : Vector U64 4) :
    Vector U64 4 :=
  let input := storeWords uninit 0 inputWords
  let nibbles := (List.range 32).foldl (fun nibbles i =>
    Function.update (Function.update nibbles (2 * i) (input i >>> 4)) (2 * i + 1)
      (input i &&& 0x0f)) uninit
  let product := (List.range 32).foldl (fun product i =>
    let (sum1, sum2) := rowSums constants nibbles i
    let product := Function.update product i
      ((((sum1 >>> 10) <<< 4) ||| (sum2 >>> 10)).setWidth 8)
    Function.update product i (product i ^^^ input i)) uninit
  heavyHashWords (Vector.ofFn fun i => load64Le product (i.val * 8))

/-- `velkar_prepare_jobs` for one job. -/
def velkarPrepareJobs (uninit jobInputs constants : Buffer Byte)
    (inputPerJob startNonce nonceMask nonceFixed : U64) (targets : Vector U64 4) (job : U64) :
    Buffer Byte :=
  let nonce := ((startNonce + job) &&& nonceMask) ||| nonceFixed
  let out := (job * inputPerJob).toNat
  let prePow : Vector U64 4 := Vector.ofFn fun i => load64Le constants (i.val * 8)
  let timestamp := load64Le constants 32
  let state := xorFront POW_INITIAL_STATE prePow
  let state := put state 4 (state.get 4 ^^^ timestamp)
  let state := put state 9 (state.get 9 ^^^ nonce)
  let stage1 := front (keccakF1600State state)
  let stage2 := matrixHeavyHashWords uninit constants stage1
  let stage3 := heavyHashWords stage2
  let stage1Bytes := storeWords uninit 0 stage1
  let stage3Bytes := storeWords uninit 0 stage3
  let jobInputs := writeAt jobInputs out 32 fun i => stage3Bytes i
  let jobInputs := storeWords jobInputs (out + 32) targets
  let jobInputs := writeAt jobInputs (out + 64) 8 fun i => (nonce >>> (8 * i)).setWidth 8
  let jobInputs := writeAt jobInputs (out + 72) 16 fun i => stage1Bytes i ^^^ stage3Bytes (i + 16)
  let jobInputs := writeAt jobInputs (out + 88) 8 fun i => (nonce >>> (8 * i)).setWidth 8
  let jobInputs := writeAt jobInputs (out + 96) 32 fun i => stage1Bytes i
  -- one loop interleaves the words of the second and the third stage
  (List.range 4).foldl (fun jobInputs i => (List.range 8).foldl (fun jobInputs b =>
    Function.update
      (Function.update jobInputs (out + 128 + i * 8 + b)
        ((stage2.toList.getD i 0 >>> (8 * b)).setWidth 8))
      (out + 160 + i * 8 + b) ((stage3.toList.getD i 0 >>> (8 * b)).setWidth 8)) jobInputs)
    jobInputs

/-! ### Stores of words -/

/-- Two ranges written alternately, the first of them wholly in front of the second. -/
theorem foldl_update_two (dst : Buffer Byte) {p q : ℕ} (n : ℕ) (f g : ℕ → Byte) (h : p + n ≤ q) :
    (List.range n).foldl (fun m b =>
        Function.update (Function.update m (p + b) (f b)) (q + b) (g b)) dst
      = writeAt (writeAt dst p n f) q n g := by
  refine Loops.foldl_split (fun m b => Function.update m (p + b) (f b))
    (fun m b => Function.update m (q + b) (g b)) (fun m b hb d _ => ?_) dst
  have hlt := List.mem_range.mp hb
  exact Function.update_comm (show q + d ≠ p + b by omega) _ _ _

/-- The same with a word for each turn. -/
theorem foldl_writeAt_two (dst : Buffer Byte) {p q : ℕ} (n : ℕ) (f g : ℕ → ℕ → Byte)
    (h : p + n * 8 ≤ q) :
    (List.range n).foldl (fun m i => writeAt (writeAt m (p + i * 8) 8 (f i)) (q + i * 8) 8 (g i))
        dst
      = writeAt (writeAt dst p (n * 8) fun k => f (k / 8) (k % 8)) q (n * 8)
          fun k => g (k / 8) (k % 8) := by
  have hsplit := Loops.foldl_split (fun m i => writeAt m (p + i * 8) 8 (f i))
    (fun m i => writeAt m (q + i * 8) 8 (g i)) (L := List.range n)
    (fun m i hi j _ => writeAt_comm m _ _ (by have hlt := List.mem_range.mp hi; omega)) dst
  rw [hsplit, foldl_writeAt_rows dst p n (by omega), foldl_writeAt_rows _ q n (by omega)]

/-- Byte `i` of four words. -/
def wordByte (words : Vector U64 4) (i : ℕ) : Byte := leByte (words.toList.getD (i / 8) 0) (i % 8)

theorem storeWords_eq (dst : Buffer Byte) (off : ℕ) (words : Vector U64 4) :
    storeWords dst off words = writeAt dst off 32 (wordByte words) :=
  foldl_writeAt_rows dst off 4 (show 0 < 8 by omega) fun i b =>
    (words.toList.getD i 0 >>> (8 * b)).setWidth 8

theorem map_wordByte (x : Uint256) :
    (List.range 32).map (wordByte x.words) = x.toLeBytes.toList := by
  apply List.ext_getElem
  · simp
  · intro i h₁ h₂
    have hi : i < 32 := by simpa using h₁
    have hd : i / 8 < 4 := by omega
    rw [List.getElem_map, List.getElem_range, Vector.getElem_toList,
      Uint256.getElem_toLeBytes _ _ hi, wordByte]
    simp [List.getD_eq_getElem?_getD, hd]

/-! ### The Keccak stages -/

theorem get_xorFront (state : Vector U64 25) (words : Vector U64 4) (q : Fin 25) :
    (xorFront state words).get q = state.get q ^^^ words.toList.getD q.val 0 := by
  have hinj : Function.Injective (Fin.castLE four_le_twentyFive) := Fin.castLE_injective _
  have hnodup : ((List.finRange 4).map (Fin.castLE four_le_twentyFive)).Nodup :=
    (List.nodup_finRange 4).map hinj
  have hget : ∀ i : Fin 4, words.get i
      = words.toList.getD (Fin.castLE four_le_twentyFive i).val 0 := by
    intro i
    simp [List.getD_eq_getElem?_getD, Vector.get]
  have hloop := get_foldl_put (fun p x => x ^^^ words.toList.getD p.val 0) hnodup state q
  rw [List.foldl_map] at hloop
  simp only [xorFront, hget]
  rw [hloop]
  split
  · rfl
  · rename_i hq
    have hge : 4 ≤ q.val := by
      by_contra hlt
      exact hq (List.mem_map.mpr ⟨⟨q.val, by omega⟩, List.mem_finRange _, Fin.ext rfl⟩)
    rw [List.getD_eq_default _ _ (by simpa using hge)]
    exact BitVec.xor_zero.symm

theorem xorFront_eq (state : Vector U64 25) (words : Vector U64 4) :
    xorFront state words = xorWords state words := by
  apply Vector.ext
  intro i hi
  have hq := get_xorFront state words ⟨i, hi⟩
  rw [xorWords, Vector.getElem_mapIdx, ← Vector.getElem?_toList, ← List.getD_eq_getElem?_getD]
  exact hq

theorem POW_INITIAL_STATE_eq : POW_INITIAL_STATE = PowHasher.INITIAL_STATE := by
  decide +kernel

theorem HEAVY_INITIAL_STATE_eq : HEAVY_INITIAL_STATE = HeavyHasher.INITIAL_STATE := by
  decide +kernel

variable {c : Crates}

theorem heavyHashWords_eq (hf : ∀ A, c.f1600 A = Keccak.keccakF A) (x : Uint256) :
    heavyHashWords x.words = (HeavyHasher.hash c x).words := by
  rw [heavyHashWords, keccakF1600State_eq, xorFront_eq, HEAVY_INITIAL_STATE_eq, HeavyHasher.hash,
    hf]
  rfl

/-- The state of the first stage, with timestamp and nonce absorbed. -/
theorem powState_eq (x : Uint256) (timestamp nonce : U64) :
    let state := xorFront POW_INITIAL_STATE x.words
    let state := put state 4 (state.get 4 ^^^ timestamp)
    put state 9 (state.get 9 ^^^ nonce)
      = put (PowHasher.new x timestamp).words 9
          ((PowHasher.new x timestamp).words.get 9 ^^^ nonce) := by
  have hnew : (PowHasher.new x timestamp).words
      = put (xorWords PowHasher.INITIAL_STATE x.words) 4
          ((xorWords PowHasher.INITIAL_STATE x.words).get 4 ^^^ timestamp) := set_eq_put _ _ _
  simp only [hnew, xorFront_eq, POW_INITIAL_STATE_eq]

theorem finalizeWithNonce_words (hf : ∀ A, c.f1600 A = Keccak.keccakF A) (x : Uint256)
    (timestamp nonce : U64) :
    ((PowHasher.new x timestamp).finalizeWithNonce c nonce).words
      = front (keccakF1600State (put (PowHasher.new x timestamp).words 9
          ((PowHasher.new x timestamp).words.get 9 ^^^ nonce))) := by
  rw [PowHasher.finalizeWithNonce, hf, keccakF1600State_eq, set_eq_put]
  rfl

/-! ### The constants of a job -/

section

variable (s : State) (buffers : DeviceBuffers)

theorem uploadConstants_apply {i : ℕ} (hi : i < CONSTANTS_BYTES) :
    (uploadConstants s buffers).constants i
      = (s.gpuHashHeader.toList ++ s.matrix.val.asU16LeBytes.toList).getD i 0 := by
  simp only [uploadConstants]
  rw [writeAt_apply, if_pos (by omega), Nat.sub_zero]

theorem constants_header {i : ℕ} (hi : i < 72) :
    (uploadConstants s buffers).constants i = s.gpuHashHeader.toList.getD i 0 := by
  have hlen : s.gpuHashHeader.toList.length = 72 := Vector.length_toList
  have hlt : i < CONSTANTS_BYTES := by
    show i < 8264
    omega
  rw [uploadConstants_apply s buffers hlt, List.getD_append _ _ _ _ (by omega)]

theorem constants_matrix {k : ℕ} (hk : k < 8192) :
    (uploadConstants s buffers).constants (72 + k) = s.matrix.val.asU16LeBytes.toList.getD k 0 := by
  have hlen : s.gpuHashHeader.toList.length = 72 := Vector.length_toList
  have hlt : 72 + k < CONSTANTS_BYTES := by
    show 72 + k < 8264
    omega
  rw [uploadConstants_apply s buffers hlt, List.getD_append_right _ _ _ _ (by omega), hlen,
    Nat.add_sub_cancel_left]

theorem load_prePowHash :
    (Vector.ofFn fun i : Fin 4 => load64Le (uploadConstants s buffers).constants (i.val * 8))
      = s.prePowHash.words := by
  apply Vector.ext
  intro i hi
  rw [Vector.getElem_ofFn, ← ofLe_leByte s.prePowHash.words[i] (n := 8) (by norm_num)]
  have hbyte : ∀ k < 8, (uploadConstants s buffers).constants (i * 8 + k)
      = leByte s.prePowHash.words[i] k := by
    intro k hk
    have hd : (i * 8 + k) / 8 = i := by omega
    have hm : (i * 8 + k) % 8 = k := by omega
    have h32 : i * 8 + k < 32 := by omega
    have h72 : i * 8 + k < 72 := by omega
    rw [constants_header s buffers h72, List.getD_eq_getElem?_getD, Vector.getElem?_toList,
      Vector.getElem?_eq_getElem h72, Option.getD_some, State.gpuHashHeader, Vector.getElem_ofFn]
    simp only [h32, dif_pos, Uint256.getElem_toLeBytes _ _ h32, hd, hm]
  exact ofLe_congr hbyte

theorem load_timestamp : load64Le (uploadConstants s buffers).constants 32 = s.timestamp := by
  rw [← ofLe_leByte s.timestamp (n := 8) (by norm_num)]
  have hbyte : ∀ k < 8, (uploadConstants s buffers).constants (32 + k)
      = leByte s.timestamp k := by
    intro k hk
    have h72 : 32 + k < 72 := by omega
    rw [constants_header s buffers h72, List.getD_eq_getElem?_getD, Vector.getElem?_toList,
      Vector.getElem?_eq_getElem h72, Option.getD_some, State.gpuHashHeader, Vector.getElem_ofFn]
    simp only [show ¬ 32 + k < 32 by omega, dif_neg, show 32 + k < 40 by omega, if_pos,
      Nat.add_sub_cancel_left, not_false_eq_true]
  exact ofLe_congr hbyte

theorem loadMatrixValue_eq (row col : Fin 64) :
    loadMatrixValue (uploadConstants s buffers).constants row.val col.val
      = (s.matrix.val.rows.get row).get col := by
  have hbyte : ∀ b < 2, (uploadConstants s buffers).constants
      (72 + ((row.val * 64 + col.val) * 2 + b))
      = leByte ((s.matrix.val.rows.get row).get col) b := by
    intro b hb
    have hk : (row.val * 64 + col.val) * 2 + b < 8192 := by omega
    have hrow : ((row.val * 64 + col.val) * 2 + b) / 2 / 64 = row.val := by omega
    have hcol : ((row.val * 64 + col.val) * 2 + b) / 2 % 64 = col.val := by omega
    have hmod : ((row.val * 64 + col.val) * 2 + b) % 2 = b := by omega
    rw [constants_matrix s buffers hk, List.getD_eq_getElem?_getD, Vector.getElem?_toList,
      Vector.getElem?_eq_getElem hk, Option.getD_some, Matrix64.asU16LeBytes, Vector.getElem_ofFn]
    simp only [hrow, hcol, hmod]
    rfl
  have h0 := hbyte 0 (by omega)
  have h1 := hbyte 1 (by omega)
  rw [loadMatrixValue, ← ofLe_leByte ((s.matrix.val.rows.get row).get col) (n := 2) (by norm_num)]
  simp only [← Nat.add_assoc, Nat.add_zero] at h0 h1
  simp only [h0, h1, ofLe]
  simp [List.range_succ]

end

/-! ### The matrix stage -/

/-- The loop that splits bytes into nibbles. -/
theorem foldl_nibbles (uninit input : Buffer Byte) (n k : ℕ) (hk : k < 2 * n) :
    (List.range n).foldl (fun nibbles i =>
        Function.update (Function.update nibbles (2 * i) (input i >>> 4)) (2 * i + 1)
          (input i &&& 0x0f)) uninit k
      = if k % 2 = 0 then input (k / 2) >>> 4 else input (k / 2) &&& 0x0f := by
  induction n with
  | zero => omega
  | succ n ih =>
    rw [List.range_succ, List.foldl_append, List.foldl_cons, List.foldl_nil]
    by_cases hodd : k = 2 * n + 1
    · have hd : (2 * n + 1) / 2 = n := by omega
      rw [hodd, Function.update_self, if_neg (by omega), hd]
    · rw [Function.update_of_ne hodd]
      by_cases heven : k = 2 * n
      · have hd : 2 * n / 2 = n := by omega
        rw [heven, Function.update_self, if_pos (by omega), hd]
      · rw [Function.update_of_ne heven, ih (by omega)]

/-- The loop over the product bytes writes each of them once. -/
theorem foldl_product (uninit input : Buffer Byte) (byte : ℕ → Byte) (n : ℕ) :
    (List.range n).foldl (fun product i =>
        let product := Function.update product i (byte i)
        Function.update product i (product i ^^^ input i)) uninit
      = writeAt uninit 0 n fun i => byte i ^^^ input i := by
  simp only [Function.update_self, Function.update_idem, writeAt, Nat.zero_add]

/-- Two sums carried through one loop. -/
theorem foldl_pair {α β γ : Type} (f : α → γ → α) (g : β → γ → β) (l : List γ) (a : α) (b : β) :
    l.foldl (fun s j => (f s.1 j, g s.2 j)) (a, b) = (l.foldl f a, l.foldl g b) := by
  induction l generalizing a b with
  | nil => rfl
  | cons j l ih => exact ih (f a j) (g b j)

/-- The `uint` sum of the device and the `u16` sum of the host are one number, and neither
wraps. -/
theorem sums_agree {x : Fin 64 → U16} {e : Fin 64 → Byte} (hx : ∀ j, (x j).toNat ≤ 15)
    (he : ∀ j, (e j).toNat ≤ 15) :
    ((List.finRange 64).foldl
        (fun (sum : U32) j => sum + (x j).setWidth 32 * (e j).setWidth 32) 0).toNat
      = ((List.finRange 64).foldl (fun sum j => sum + x j * (e j).setWidth 16) 0).toNat := by
  have hlength : (List.finRange 64).length ≤ 64 := by rw [List.length_finRange]
  have hx32 : ∀ j, ((x j).setWidth 32).toNat = (x j).toNat := fun j =>
    (BitVec.toNat_setWidth 32 (x j)).trans (Nat.mod_eq_of_lt (by omega))
  have he32 : ∀ j, ((e j).setWidth 32).toNat = (e j).toNat := fun j =>
    (BitVec.toNat_setWidth 32 (e j)).trans (Nat.mod_eq_of_lt (by omega))
  have he16 : ∀ j, ((e j).setWidth 16).toNat = (e j).toNat := fun j =>
    (BitVec.toNat_setWidth 16 (e j)).trans (Nat.mod_eq_of_lt (by omega))
  rw [Matrix64.toNat_foldl_products (by omega) _ hlength (fun j => (hx32 j).trans_le (hx j))
      (fun j => (he32 j).trans_le (he j)),
    Matrix64.toNat_foldl_products (by omega) _ hlength hx (fun j => (he16 j).trans_le (he j))]
  simp only [hx32, he32, he16]

/-- The two sums of a product byte, in either width. -/
theorem productByte_eq {a b : U32} {a' b' : U16} (ha : a.toNat = a'.toNat)
    (hb : b.toNat = b'.toNat) :
    (((a >>> 10) <<< 4) ||| (b >>> 10)).setWidth 8
      = ((a' >>> 10) <<< 4).setWidth 8 ||| (b' >>> 10).setWidth 8 := by
  have hwide : ∀ {x : U32} {x' : U16}, x.toNat = x'.toNat → x = x'.setWidth 32 := by
    intro x x' h
    apply BitVec.eq_of_toNat_eq
    rw [BitVec.toNat_setWidth, h, Nat.mod_eq_of_lt (by omega)]
  rw [hwide ha, hwide hb]
  apply BitVec.eq_of_getLsbD_eq
  intro i hi
  simp only [BitVec.getLsbD_setWidth, BitVec.getLsbD_or, BitVec.getLsbD_shiftLeft,
    BitVec.getLsbD_ushiftRight, hi, show i < 32 by omega, show i < 16 by omega,
    show 10 + i < 32 by omega, show 10 + (i - 4) < 32 by omega, decide_true, Bool.true_and]

section

variable (s : State) (buffers : DeviceBuffers)

/-- A sum over a row of the constants buffer is the row sum of the matrix. -/
theorem rowSum_agrees (row : Fin 64) (hash : Vector Byte 32) (nibbles : Buffer Byte)
    (hn : ∀ j : Fin 64, nibbles j.val = (Matrix64.nibbles hash).get j) :
    ((List.range 64).foldl (fun (sum : U32) j =>
        sum + (loadMatrixValue (uploadConstants s buffers).constants row.val j).setWidth 32
          * (nibbles j).setWidth 32) 0).toNat
      = (s.matrix.val.rowSum row (Matrix64.nibbles hash)).toNat := by
  have hentry : ∀ j : Fin 64, ((s.matrix.val.rows.get row).get j).toNat ≤ 15 := fun j =>
    s.matrix.property row.val row.isLt j.val j.isLt
  have hsums := sums_agree hentry (Matrix64.nibbles_le hash)
  rw [← List.map_coe_finRange_eq_range, List.foldl_map]
  simp only [loadMatrixValue_eq, hn]
  exact hsums

theorem storeWords_byte (uninit : Buffer Byte) (x : Uint256) {i : ℕ} (hi : i < 32) :
    storeWords uninit 0 x.words i = x.toLeBytes[i] := by
  have hd : i / 8 < 4 := by omega
  rw [storeWords_eq, writeAt_apply, if_pos (by omega), Nat.sub_zero,
    Uint256.getElem_toLeBytes _ _ hi,
    wordByte]
  simp [List.getD_eq_getElem?_getD, hd]

theorem rowSums_eq (constants nibbles : Buffer Byte) (i : ℕ) :
    rowSums constants nibbles i
      = ((List.range 64).foldl (fun (sum : U32) j =>
          sum + (loadMatrixValue constants (2 * i) j).setWidth 32 * (nibbles j).setWidth 32) 0,
        (List.range 64).foldl (fun (sum : U32) j =>
          sum + (loadMatrixValue constants (2 * i + 1) j).setWidth 32
            * (nibbles j).setWidth 32) 0) :=
  foldl_pair (fun sum j => sum + (loadMatrixValue constants (2 * i) j).setWidth 32
    * (nibbles j).setWidth 32) (fun sum j => sum
    + (loadMatrixValue constants (2 * i + 1) j).setWidth 32 * (nibbles j).setWidth 32) _ 0 0

/-- The matrix stage of the device is that of the host. -/
theorem matrixHeavyHashWords_eq {c : Crates} (hf : ∀ A, c.f1600 A = Keccak.keccakF A)
    (uninit : Buffer Byte) (x : Uint256) :
    matrixHeavyHashWords uninit (uploadConstants s buffers).constants x.words
      = (s.matrix.val.heavyHash c x).words := by
  set input := storeWords uninit 0 x.words with hinput
  set nibbles := (List.range 32).foldl (fun nibbles i =>
    Function.update (Function.update nibbles (2 * i) (input i >>> 4)) (2 * i + 1)
      (input i &&& 0x0f)) uninit with hnibbles
  set constants := (uploadConstants s buffers).constants with hconstants
  -- the first loop spreads the bytes into the nibbles that `heavy_hash` multiplies
  have hn : ∀ j : Fin 64, nibbles j.val = (Matrix64.nibbles x.toLeBytes).get j := by
    intro j
    have hj := j.isLt
    have h32 : j.val / 2 < 32 := by omega
    show nibbles j.val = (Matrix64.nibbles x.toLeBytes)[j.val]
    rw [hnibbles, foldl_nibbles uninit input 32 j.val (by omega), Matrix64.nibbles,
      Vector.getElem_ofFn, hinput, storeWords_byte uninit x h32]
  -- a turn of the second loop writes its byte twice and reads only that byte and the input
  have hproduct : (List.range 32).foldl (fun product i =>
      let (sum1, sum2) := rowSums constants nibbles i
      let product := Function.update product i
        ((((sum1 >>> 10) <<< 4) ||| (sum2 >>> 10)).setWidth 8)
      Function.update product i (product i ^^^ input i)) uninit
      = writeAt uninit 0 32 fun i => ((((rowSums constants nibbles i).1 >>> 10) <<< 4)
          ||| ((rowSums constants nibbles i).2 >>> 10)).setWidth 8 ^^^ input i :=
    foldl_product uninit input _ 32
  have hbyte : ∀ i (hi : i < 32),
      (((((rowSums constants nibbles i).1 >>> 10) <<< 4)
          ||| ((rowSums constants nibbles i).2 >>> 10)).setWidth 8 : Byte) ^^^ input i
        = (Vector.zipWith (· ^^^ ·) (s.matrix.val.product x.toLeBytes) x.toLeBytes)[i] := by
    intro i hi
    have h1 := rowSum_agrees s buffers ⟨2 * i, by omega⟩ x.toLeBytes nibbles hn
    have h2 := rowSum_agrees s buffers ⟨2 * i + 1, by omega⟩ x.toLeBytes nibbles hn
    rw [Vector.getElem_zipWith, rowSums_eq, productByte_eq h1 h2, hinput,
      storeWords_byte uninit x hi, Matrix64.product, Vector.getElem_ofFn]
  have hwords : (Vector.ofFn fun i : Fin 4 => load64Le (writeAt uninit 0 32 fun i =>
      ((((rowSums constants nibbles i).1 >>> 10) <<< 4)
        ||| ((rowSums constants nibbles i).2 >>> 10)).setWidth 8 ^^^ input i) (i.val * 8))
      = (Uint256.fromLeBytes (Vector.zipWith (· ^^^ ·) (s.matrix.val.product x.toLeBytes)
          x.toLeBytes)).words := by
    apply Vector.ext
    intro i hi
    rw [Vector.getElem_ofFn, Uint256.fromLeBytes, getElem_wordsOfBytes _ i hi]
    apply ofLe_congr
    intro k hk
    have h32 : 8 * i + k < 32 := by omega
    rw [Nat.mul_comm i 8, writeAt_apply, if_pos (by omega), Nat.sub_zero, hbyte _ h32,
      Vector.getElem?_eq_getElem h32, Option.getD_some]
  rw [matrixHeavyHashWords, ← hinput]
  simp only [← hnibbles]
  rw [hproduct, hwords, heavyHashWords_eq hf, Matrix64.heavyHash]

end

/-! ### The row -/

theorem bytesAt_zero (b : Buffer Byte) (off : ℕ) : bytesAt b off 0 = [] := rfl

/-- An array that is three strings in a row. -/
theorem toList_three {x y z : List Byte} {n : ℕ} (v : Vector Byte n) (hx : x.length = 32)
    (hy : y.length = 32) (hz : 64 + z.length = n)
    (hv : ∀ i (hi : i < n), v[i] = if i < 32 then x.getD i 0
      else if i < 64 then y.getD (i - 32) 0 else z.getD (i - 64) 0) :
    v.toList = x ++ y ++ z := by
  apply List.ext_getElem
  · rw [Vector.length_toList, List.length_append, List.length_append]
    omega
  · intro i h₁ h₂
    have hi : i < n := by simpa using h₁
    rw [Vector.getElem_toList, hv i hi, ← List.getD_eq_getElem _ 0 h₂]
    by_cases h32 : i < 32
    · rw [if_pos h32, List.append_assoc, List.getD_append _ _ _ _ (by omega)]
    · rw [if_neg h32]
      by_cases h64 : i < 64
      · rw [if_pos h64, List.append_assoc, List.getD_append_right _ _ _ _ (by omega), hx,
          List.getD_append _ _ _ _ (by omega)]
      · rw [if_neg h64, List.getD_append_right _ _ _ _ (by rw [List.length_append]; omega),
          List.length_append, hx, hy]

theorem getD_toLeBytes (x : Uint256) {i : ℕ} (hi : i < 32) :
    x.toLeBytes.toList.getD i 0 = x.toLeBytes[i] := by
  rw [List.getD_eq_getElem?_getD, Vector.getElem?_toList, Vector.getElem?_eq_getElem hi,
    Option.getD_some]

theorem toList_memoryHardPassword (stage3 : Hash) (nonce : U64) (target : Uint256) :
    (memoryHardPassword stage3 nonce target).toList
      = stage3.toLeBytes.toList ++ target.toLeBytes.toList ++ leBytes nonce := by
  have hnonce : 64 + (leBytes nonce).length = 72 := by simp [leBytes]
  refine toList_three _ Vector.length_toList Vector.length_toList hnonce ?_
  intro i hi
  simp only [memoryHardPassword, Vector.getElem_ofFn]
  by_cases h32 : i < 32
  · rw [dif_pos h32, if_pos h32, getD_toLeBytes _ h32]
  · rw [dif_neg h32, if_neg h32]
    by_cases h64 : i < 64
    · rw [dif_pos h64, if_pos h64, getD_toLeBytes _ (by omega)]
    · rw [dif_neg h64, if_neg h64]
      simp [leBytes, List.getD_eq_getElem?_getD, show i - 64 < 8 by omega]

theorem wordByte_eq (x : Uint256) {i : ℕ} (hi : i < 32) : wordByte x.words i = x.toLeBytes[i] := by
  rw [← storeWords_byte (fun _ => 0) x hi, storeWords_eq, writeAt_apply, if_pos (by omega),
    Nat.sub_zero]

theorem toList_memoryHardSalt (stage1 stage3 : Hash) :
    (memoryHardSalt stage1 stage3).toList
      = (List.range 16).map fun i => wordByte stage1.words i
        ^^^ wordByte stage3.words (i + 16) := by
  apply List.ext_getElem
  · simp
  · intro i h₁ h₂
    have hi : i < 16 := by simpa using h₁
    rw [Vector.getElem_toList, List.getElem_map, List.getElem_range,
      wordByte_eq stage1 (show i < 32 by omega), wordByte_eq stage3 (show i + 16 < 32 by omega)]
    simp only [memoryHardSalt, Vector.getElem_ofFn]

/-- The words that the last loop interleaves. -/
theorem foldl_last (dst : Buffer Byte) (out : ℕ) (stage2 stage3 : Vector U64 4) :
    (List.range 4).foldl (fun jobInputs i => (List.range 8).foldl (fun jobInputs b =>
        Function.update
          (Function.update jobInputs (out + 128 + i * 8 + b)
            ((stage2.toList.getD i 0 >>> (8 * b)).setWidth 8))
          (out + 160 + i * 8 + b) ((stage3.toList.getD i 0 >>> (8 * b)).setWidth 8)) jobInputs) dst
      = writeAt (writeAt dst (out + 128) 32 (wordByte stage2)) (out + 160) 32
          (wordByte stage3) := by
  have hinner : ∀ (m : Buffer Byte) (i : ℕ), (List.range 8).foldl (fun jobInputs b =>
      Function.update
        (Function.update jobInputs (out + 128 + i * 8 + b)
          ((stage2.toList.getD i 0 >>> (8 * b)).setWidth 8))
        (out + 160 + i * 8 + b) ((stage3.toList.getD i 0 >>> (8 * b)).setWidth 8)) m
      = writeAt (writeAt m (out + 128 + i * 8) 8 fun b =>
          (stage2.toList.getD i 0 >>> (8 * b)).setWidth 8) (out + 160 + i * 8) 8 fun b =>
          (stage3.toList.getD i 0 >>> (8 * b)).setWidth 8 := fun m i =>
    foldl_update_two m 8 _ _ (by omega)
  simp only [hinner]
  exact foldl_writeAt_two dst 4 (fun i b => (stage2.toList.getD i 0 >>> (8 * b)).setWidth 8)
    (fun i b => (stage3.toList.getD i 0 >>> (8 * b)).setWidth 8) (by omega)

section

variable {c : Crates} (s : State) (buffers : DeviceBuffers)

/-- The kernel's stages of a nonce, and the stores that leave them in the row. -/
theorem velkarPrepareJobs_eq (hf : ∀ A, c.f1600 A = Keccak.keccakF A)
    (uninit jobInputs : Buffer Byte) (inputPerJob startNonce job : U64) :
    let nonce := s.applyExtranonce (startNonce + job)
    let row := GpuRow.correct c s nonce
    let out := (job * inputPerJob).toNat
    velkarPrepareJobs uninit jobInputs (uploadConstants s buffers).constants inputPerJob
        startNonce s.nonceMask s.nonceFixed s.blockTarget.words job
      = writeAt (writeAt (writeAt (writeAt (writeAt (writeAt (writeAt (writeAt jobInputs
          out 32 (wordByte row.stage3.words)) (out + 32) 32 (wordByte s.blockTarget.words))
          (out + 64) 8 (leByte nonce))
          (out + 72) 16 fun i => wordByte row.stage1.words i ^^^ wordByte row.stage3.words (i + 16))
          (out + 88) 8 (leByte nonce)) (out + 96) 32 (wordByte row.stage1.words))
          (out + 128) 32 (wordByte row.stage2.words))
          (out + 160) 32 (wordByte row.stage3.words) := by
  intro nonce row out
  have hnonce : ((startNonce + job) &&& s.nonceMask) ||| s.nonceFixed = nonce := rfl
  have hstage1 : row.stage1.words = front (keccakF1600State (put
      (PowHasher.new s.prePowHash s.timestamp).words 9
      ((PowHasher.new s.prePowHash s.timestamp).words.get 9 ^^^ nonce))) := by
    rw [← finalizeWithNonce_words hf, ← s.hasher_eq]
    rfl
  have hstage2 := matrixHeavyHashWords_eq s buffers hf uninit row.stage1
  have hstage3 := heavyHashWords_eq hf row.stage2
  -- the private copies of the stages are written in full before they are read
  have hlocal : ∀ (x : Uint256) (i : ℕ), i < 32 →
      storeWords uninit 0 x.words i = wordByte x.words i := by
    intro x i hi
    rw [storeWords_eq, writeAt_apply, if_pos (by omega), Nat.sub_zero]
  have hrow2 : (s.matrix.val.heavyHash c row.stage1) = row.stage2 := rfl
  have hrow3 : HeavyHasher.hash c row.stage2 = row.stage3 := rfl
  have hstate := powState_eq s.prePowHash s.timestamp nonce
  rw [velkarPrepareJobs]
  simp only [load_prePowHash, load_timestamp, hnonce, foldl_last, storeWords_eq _ (_ + 32)]
  simp only at hstate
  rw [hstate, ← hstage1, hstage2, hrow2, hstage3, hrow3]
  have hsalt : ∀ i < 16, storeWords uninit 0 row.stage1.words i
      ^^^ storeWords uninit 0 row.stage3.words (i + 16)
      = wordByte row.stage1.words i ^^^ wordByte row.stage3.words (i + 16) := by
    intro i hi
    rw [hlocal _ _ (by omega), hlocal _ _ (by omega)]
  rw [writeAt_congr (hlocal row.stage3), writeAt_congr (hlocal row.stage1), writeAt_congr hsalt]
  rfl

/-- The row of a job is that of its nonce, and no other byte is written. -/
theorem velkarPrepareJobs_spec (hf : ∀ A, c.f1600 A = Keccak.keccakF A)
    (uninit jobInputs : Buffer Byte) (inputPerJob startNonce job : U64) :
    let jobInputs' := velkarPrepareJobs uninit jobInputs (uploadConstants s buffers).constants
      inputPerJob startNonce s.nonceMask s.nonceFixed s.blockTarget.words job
    let out := (job * inputPerJob).toNat
    bytesAt jobInputs' out 192 = preparedRow c s (s.applyExtranonce (startNonce + job))
      ∧ ∀ a, a < out ∨ out + 192 ≤ a → jobInputs' a = jobInputs a := by
  intro jobInputs' out
  have heq := velkarPrepareJobs_eq s buffers hf uninit jobInputs inputPerJob startNonce job
  simp only at heq
  have hout : (job * inputPerJob).toNat = out := rfl
  rw [hout] at heq
  constructor
  · have hstart : writeAt jobInputs out 32 = writeAt jobInputs (out + 0) 32 := rfl
    rw [show jobInputs' = _ from heq, bytesAt_writeAt_append _ _ (show 192 = 160 + 32 by rfl),
      bytesAt_writeAt_append _ _ (show 160 = 128 + 32 by rfl),
      bytesAt_writeAt_append _ _ (show 128 = 96 + 32 by rfl),
      bytesAt_writeAt_append _ _ (show 96 = 88 + 8 by rfl),
      bytesAt_writeAt_append _ _ (show 88 = 72 + 16 by rfl),
      bytesAt_writeAt_append _ _ (show 72 = 64 + 8 by rfl),
      bytesAt_writeAt_append _ _ (show 64 = 32 + 32 by rfl), hstart,
      bytesAt_writeAt_append _ _ (show 32 = 0 + 32 by rfl), bytesAt_zero, List.nil_append,
      map_wordByte, map_wordByte, map_wordByte, map_wordByte, preparedRow,
      toList_memoryHardPassword, toList_memoryHardSalt]
    rfl
  · intro a ha
    rw [show jobInputs' = _ from heq]
    rw [writeAt_of_notMem (by omega), writeAt_of_notMem (by omega), writeAt_of_notMem (by omega),
      writeAt_of_notMem (by omega), writeAt_of_notMem (by omega), writeAt_of_notMem (by omega),
      writeAt_of_notMem (by omega), writeAt_of_notMem (by omega)]

end

end Kernel

/-! ### The kernel refines the host -/

/-- Byte for byte, the row of job `job` is the password and salt of the memory-hard stage, the
nonce and the three stages the host computes for that nonce. -/
theorem prepare_jobs_refines (c : Crates) (hf : ∀ A, c.f1600 A = Keccak.keccakF A) (s : State)
    (buffers : DeviceBuffers) (uninit jobInputs : Buffer Byte)
    (inputPerJob startNonce job : U64) :
    let nonce := s.applyExtranonce (startNonce + job)
    let stage1 := s.hasher.finalizeWithNonce c nonce
    let stage2 := s.matrix.val.heavyHash c stage1
    let stage3 := HeavyHasher.hash c stage2
    let out := (job * inputPerJob).toNat
    let jobInputs' := Kernel.velkarPrepareJobs uninit jobInputs
      (uploadConstants s buffers).constants inputPerJob startNonce s.nonceMask s.nonceFixed
      s.blockTarget.toLeU64 job
    bytesAt jobInputs' out 192
        = (stage3.toLeBytes.toList ++ s.blockTarget.toLeBytes.toList ++ leBytes nonce)
          ++ (List.range 16).map (fun i => stage1.toLeBytes.toList.getD i 0
              ^^^ stage3.toLeBytes.toList.getD (i + 16) 0)
          ++ leBytes nonce
          ++ stage1.toLeBytes.toList ++ stage2.toLeBytes.toList ++ stage3.toLeBytes.toList
      ∧ bytesAt jobInputs' out 88
        = (memoryHardPassword stage3 nonce s.blockTarget).toList
          ++ (memoryHardSalt stage1 stage3).toList
      ∧ ∀ a, a < out ∨ out + 192 ≤ a → jobInputs' a = jobInputs a := by
  intro nonce stage1 stage2 stage3 out jobInputs'
  obtain ⟨hrow, hframe⟩ := Kernel.velkarPrepareJobs_spec s buffers hf uninit jobInputs inputPerJob
    startNonce job
  have hrow' : bytesAt jobInputs' out 192
      = (memoryHardPassword stage3 nonce s.blockTarget).toList
        ++ (memoryHardSalt stage1 stage3).toList ++ leBytes nonce ++ stage1.toLeBytes.toList
        ++ stage2.toLeBytes.toList ++ stage3.toLeBytes.toList := hrow
  -- the row has the salt as the kernel computes it, byte by byte
  have hsalt : (memoryHardSalt stage1 stage3).toList
      = (List.range 16).map fun i => stage1.toLeBytes.toList.getD i 0
          ^^^ stage3.toLeBytes.toList.getD (i + 16) 0 := by
    rw [Kernel.toList_memoryHardSalt]
    apply List.map_congr_left
    intro i hi
    have h16 := List.mem_range.mp hi
    rw [Kernel.wordByte_eq stage1 (show i < 32 by omega),
      Kernel.wordByte_eq stage3 (show i + 16 < 32 by omega),
      Kernel.getD_toLeBytes stage1 (by omega), Kernel.getD_toLeBytes stage3 (by omega)]
  refine ⟨?_, ?_, hframe⟩
  · rw [hrow', hsalt, Kernel.toList_memoryHardPassword]
  -- password and salt are the first 88 of the 192 bytes
  · have hlen : ((memoryHardPassword stage3 nonce s.blockTarget).toList
        ++ (memoryHardSalt stage1 stage3).toList).length = 88 := by
      rw [List.length_append, Vector.length_toList, Vector.length_toList]
    rw [← Kernel.take_bytesAt jobInputs' out (show 88 ≤ 192 by omega), hrow', List.append_assoc,
      List.append_assoc, List.append_assoc]
    exact List.take_left' hlen

/-- The second job of a batch that starts at nonce 1. -/
theorem prepare_jobs_refines_second :
    bytesAt (Kernel.velkarPrepareJobs (fun _ => 0) (fun _ => 0)
        (uploadConstants State.sampleState sampleBuffers).constants 192 1
        State.sampleState.nonceMask State.sampleState.nonceFixed
        State.sampleState.blockTarget.toLeU64 1) 192 88
      = (memoryHardPassword (GpuRow.correct keccakCrates State.sampleState
            (State.sampleState.applyExtranonce 2)).stage3
          (State.sampleState.applyExtranonce 2) State.sampleState.blockTarget).toList
        ++ (memoryHardSalt (GpuRow.correct keccakCrates State.sampleState
              (State.sampleState.applyExtranonce 2)).stage1
            (GpuRow.correct keccakCrates State.sampleState
              (State.sampleState.applyExtranonce 2)).stage3).toList :=
  (prepare_jobs_refines keccakCrates (fun _ => rfl) State.sampleState sampleBuffers (fun _ => 0)
    (fun _ => 0) 192 1 1).2.1
