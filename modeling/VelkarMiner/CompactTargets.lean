/-
Shifting 256-bit integers and decoding compact targets (`src/target.rs`).

The loop of `Shl<usize>` gives every word of the operand to at most two words of the
result.  After `n` turns the result is the shifted value of the low `n` words
(`toNat_foldl_shlStep`), and this alone says that the word a turn adds to has room:

* `shl_exact` — the shift is multiplication modulo `2 ^ 256`, and in a build with overflow
  checks no addition, index or inner shift of the loop fails;
* `compact_target_exact_iff` — a compact target is decoded to its numeric value, except
  that the sign bit is lost when the mantissa is shifted right before it is tested.
-/
import VelkarMiner.Target

open Bytes Rust

namespace Uint256

/-! ### The loop, with every operation checked -/

/-- `a + b` in `u64` or `usize`, with overflow checks. -/
def addChecked (a b : U64) : Outcome Error U64 :=
  if a.toNat + b.toNat < 2 ^ 64 then .ok (a + b) else .panic

/-- `x >> s`, with overflow checks. -/
def shrChecked (x : U64) (s : ℕ) : Outcome Error U64 := if s < 64 then .ok (x >>> s) else .panic

/-- `ret[index] += y`. -/
def addAt (ret : Vector U64 4) (index : U64) (y : U64) : Outcome Error (Vector U64 4) := do
  let old ← Outcome.expect ret[index.toNat]?
  let sum ← addChecked old y
  pure (ret.setIfInBounds index.toNat sum)

/-- The shift of a turn. -/
def shiftPart (original : Vector U64 4) (wordShift bitShift : U64) (ret : Vector U64 4)
    (i : Fin 4) : Outcome Error (Vector U64 4) := do
  let index ← addChecked (BitVec.ofNat 64 i.val) wordShift
  if bitShift < 64 ∧ index < 4 then
    let shifted ← shlU64 true (original.get i) bitShift.toNat
    addAt ret index shifted
  else pure ret

/-- The carry of a turn. -/
def carryPart (original : Vector U64 4) (wordShift bitShift : U64) (ret : Vector U64 4)
    (i : Fin 4) : Outcome Error (Vector U64 4) :=
  if bitShift > 0 then do
    let index ← addChecked (BitVec.ofNat 64 i.val) wordShift
    let index ← addChecked index 1
    if index < 4 then
      let carry ← shrChecked (original.get i) (64 - bitShift).toNat
      addAt ret index carry
    else pure ret
  else pure ret

/-- One turn of the loop. -/
def shlTurn (original : Vector U64 4) (wordShift bitShift : U64) (ret : Vector U64 4)
    (i : Fin 4) : Outcome Error (Vector U64 4) := do
  let ret ← shiftPart original wordShift bitShift ret i
  carryPart original wordShift bitShift ret i

/-- `x << shift` in a build with overflow checks. -/
def shlChecked (x : Uint256) (shift : U64) : Outcome Error Uint256 := do
  let ret ← (List.finRange 4).foldlM (shlTurn x.words (shift / 64) (shift % 64))
    (Vector.replicate 4 0)
  pure ⟨ret⟩

/-! ### Words of the value -/

/-- A word is a digit of the value. -/
theorem toNat_word (x : Uint256) {j : ℕ} (hj : j < 4) :
    x.words[j].toNat = x.toNat / 2 ^ (64 * j) % 2 ^ 64 := by
  have h0 := x.words[0].isLt
  have h1 := x.words[1].isLt
  have h2 := x.words[2].isLt
  have h3 := x.words[3].isLt
  have hcases : j = 0 ∨ j = 1 ∨ j = 2 ∨ j = 3 := by omega
  unfold toNat
  rcases hcases with rfl | rfl | rfl | rfl
  · omega
  · omega
  · omega
  · omega

/-- Adding to a word that has room. -/
theorem toNat_set_add (v : Vector U64 4) {j : ℕ} (hj : j < 4) (y : U64)
    (h : v[j].toNat + y.toNat < 2 ^ 64) :
    toNat ⟨v.set j (v[j] + y)⟩ = toNat ⟨v⟩ + y.toNat * 2 ^ (64 * j) := by
  have hsum : (v[j] + y).toNat = v[j].toNat + y.toNat := BitVec.toNat_add_of_lt h
  have hcases : j = 0 ∨ j = 1 ∨ j = 2 ∨ j = 3 := by omega
  unfold toNat
  simp only [Vector.getElem_set]
  rcases hcases with rfl | rfl | rfl | rfl <;> simp [hsum] <;> omega

/-! ### One turn -/

/-- The body of the loop. -/
def shlStep (x : Uint256) (wordShift bitShift : ℕ) (ret : Vector U64 4) (i : Fin 4) :
    Vector U64 4 :=
  let ret : Vector U64 4 := if h : bitShift < 64 ∧ i.val + wordShift < 4 then
      ret.set (i.val + wordShift) (ret[i.val + wordShift] + x.words[i] <<< bitShift)
    else ret
  if h : bitShift > 0 ∧ i.val + wordShift + 1 < 4 then
    ret.set (i.val + wordShift + 1) (ret[i.val + wordShift + 1] + x.words[i] >>> (64 - bitShift))
  else ret

theorem shl_eq (x : Uint256) (s : ℕ) :
    x.shl s = ⟨(List.finRange 4).foldl (shlStep x (s / 64) (s % 64)) (Vector.replicate 4 0)⟩ := rfl

/-- The low `n` words of an integer, shifted. -/
def shiftedLow (x : Uint256) (k b n : ℕ) : ℕ := x.toNat % 2 ^ (64 * n) * 2 ^ (64 * k + b)

/-- What a word contributes, split at the word boundary. -/
theorem shiftedLow_succ (x : Uint256) (k : ℕ) {b : ℕ} (hb : b < 64) {n : ℕ} (hn : n < 4) :
    shiftedLow x k b (n + 1) = shiftedLow x k b n
      + (x.words[n] <<< b).toNat * 2 ^ (64 * (n + k))
      + (x.words[n].toNat / 2 ^ (64 - b)) * 2 ^ (64 * (n + k + 1)) := by
  have hword : x.toNat % 2 ^ (64 * (n + 1))
      = x.toNat % 2 ^ (64 * n) + 2 ^ (64 * n) * x.words[n].toNat := by
    rw [toNat_word x hn, Nat.mul_add, pow_add, Nat.mod_mul]
  have hpow : (2 : ℕ) ^ 64 = 2 ^ b * 2 ^ (64 - b) := by
    rw [← pow_add]
    congr 1
    omega
  have hsplit : x.words[n].toNat * 2 ^ b
      = (x.words[n] <<< b).toNat + 2 ^ 64 * (x.words[n].toNat / 2 ^ (64 - b)) := by
    have hdiv : x.words[n].toNat * 2 ^ b / 2 ^ 64 = x.words[n].toNat / 2 ^ (64 - b) := by
      rw [hpow, Nat.mul_comm (x.words[n].toNat), Nat.mul_div_mul_left _ _ (by positivity)]
    rw [BitVec.toNat_shiftLeft, Nat.shiftLeft_eq, ← hdiv, Nat.mod_add_div]
  calc shiftedLow x k b (n + 1)
      = shiftedLow x k b n + x.words[n].toNat * 2 ^ b * 2 ^ (64 * (n + k)) := by
        rw [shiftedLow, shiftedLow, hword]
        ring
    _ = _ := by
        rw [hsplit]
        ring

theorem shiftedLow_lt (x : Uint256) (k b n : ℕ) :
    shiftedLow x k b n < 2 ^ (64 * (n + k)) * 2 ^ b := by
  have hlow : x.toNat % 2 ^ (64 * n) < 2 ^ (64 * n) := Nat.mod_lt _ (by positivity)
  calc shiftedLow x k b n < 2 ^ (64 * n) * 2 ^ (64 * k + b) :=
        Nat.mul_lt_mul_of_pos_right hlow (by positivity)
    _ = 2 ^ (64 * (n + k)) * 2 ^ b := by ring

section

variable {x : Uint256} {k b n : ℕ} {ret : Vector U64 4}

/-- The shifted low words end in the word that the next turn adds to, up to a carry. -/
theorem word_lt (h : toNat ⟨ret⟩ = shiftedLow x k b n % 2 ^ 256) (hj : n + k < 4) :
    ret[n + k].toNat < 2 ^ b := by
  have hle : toNat ⟨ret⟩ ≤ shiftedLow x k b n := h ▸ Nat.mod_le _ _
  have hlt := hle.trans_lt (shiftedLow_lt x k b n)
  rw [toNat_word ⟨ret⟩ hj]
  exact (Nat.mod_le _ _).trans_lt (Nat.div_lt_of_lt_mul hlt)

/-- The word behind it is still zero. -/
theorem word_eq_zero (h : toNat ⟨ret⟩ = shiftedLow x k b n % 2 ^ 256) (hb : b < 64)
    (hj : n + k + 1 < 4) : ret[n + k + 1].toNat = 0 := by
  have hle : toNat ⟨ret⟩ ≤ shiftedLow x k b n := h ▸ Nat.mod_le _ _
  have hlt : toNat ⟨ret⟩ < 2 ^ (64 * (n + k + 1)) :=
    calc toNat ⟨ret⟩ < 2 ^ (64 * (n + k)) * 2 ^ b := hle.trans_lt (shiftedLow_lt x k b n)
      _ ≤ 2 ^ (64 * (n + k)) * 2 ^ 64 :=
          Nat.mul_le_mul_left _ (Nat.pow_le_pow_right Nat.two_pos hb.le)
      _ = 2 ^ (64 * (n + k + 1)) := by rw [← pow_add, Nat.mul_add _ (n + k) 1]
  rw [toNat_word ⟨ret⟩ hj, Nat.div_eq_of_lt hlt, Nat.zero_mod]

/-- A shifted word leaves the low bits to the carry. -/
theorem shiftLeft_add_lt (w : U64) (hb : b < 64) {c : ℕ} (hc : c < 2 ^ b) :
    c + (w <<< b).toNat < 2 ^ 64 := by
  have hpow : (2 : ℕ) ^ 64 = 2 ^ b * 2 ^ (64 - b) := by
    rw [← pow_add]
    congr 1
    omega
  have hlow : w.toNat % 2 ^ (64 - b) + 1 ≤ 2 ^ (64 - b) := Nat.mod_lt _ (by positivity)
  have hshift : (w <<< b).toNat = 2 ^ b * (w.toNat % 2 ^ (64 - b)) := by
    rw [BitVec.toNat_shiftLeft, Nat.shiftLeft_eq, hpow, Nat.mul_comm w.toNat,
      Nat.mul_mod_mul_left]
  calc c + (w <<< b).toNat < 2 ^ b + 2 ^ b * (w.toNat % 2 ^ (64 - b)) := by
        rw [hshift]
        exact Nat.add_lt_add_right hc _
    _ = 2 ^ b * (w.toNat % 2 ^ (64 - b) + 1) := by ring
    _ ≤ 2 ^ b * 2 ^ (64 - b) := Nat.mul_le_mul_left _ hlow
    _ = 2 ^ 64 := hpow.symm

/-- Terms from the fourth word on vanish. -/
theorem modEq_zero_of_le {j : ℕ} (hj : 4 ≤ j) (a : ℕ) : 0 ≡ a * 2 ^ (64 * j) [MOD 2 ^ 256] := by
  obtain ⟨d, rfl⟩ := Nat.exists_eq_add_of_le hj
  have hdvd : 2 ^ 256 ∣ a * 2 ^ (64 * (4 + d)) := by
    rw [Nat.mul_add, pow_add]
    exact Dvd.dvd.mul_left (Dvd.intro _ rfl) a
  exact ((Nat.modEq_zero_iff_dvd).mpr hdvd).symm

/-- A turn adds the next word of the operand. -/
theorem toNat_shlStep (hb : b < 64) (i : Fin 4)
    (h : toNat ⟨ret⟩ = shiftedLow x k b i.val % 2 ^ 256) :
    toNat ⟨shlStep x k b ret i⟩ = shiftedLow x k b (i.val + 1) % 2 ^ 256 := by
  set w := x.words[i] with hw
  -- the shifted part
  set ret₁ : Vector U64 4 := if h : b < 64 ∧ i.val + k < 4 then
    ret.set (i.val + k) (ret[i.val + k] + w <<< b) else ret with hret₁
  have hfirst : toNat ⟨ret₁⟩ ≡ toNat ⟨ret⟩ + (w <<< b).toNat * 2 ^ (64 * (i.val + k))
      [MOD 2 ^ 256] := by
    by_cases hj : i.val + k < 4
    · have hroom := shiftLeft_add_lt w hb (word_lt h hj)
      rw [hret₁, dif_pos ⟨hb, hj⟩, toNat_set_add ret hj _ hroom]
    · rw [hret₁, dif_neg fun hand => hj hand.2]
      exact (Nat.ModEq.refl (toNat ⟨ret⟩)).add (modEq_zero_of_le (by omega) _)
  -- the carry
  have hsecond : toNat ⟨shlStep x k b ret i⟩
      ≡ toNat ⟨ret₁⟩ + w.toNat / 2 ^ (64 - b) * 2 ^ (64 * (i.val + k + 1)) [MOD 2 ^ 256] := by
    by_cases hj : b > 0 ∧ i.val + k + 1 < 4
    · have hsame : ret₁[i.val + k + 1] = ret[i.val + k + 1] := by
        rw [hret₁, dif_pos ⟨hb, by omega⟩, Vector.getElem_set_ne _ _ (by omega)]
      have hroom : ret₁[i.val + k + 1].toNat + (w >>> (64 - b)).toNat < 2 ^ 64 := by
        rw [hsame, word_eq_zero h hb hj.2, Nat.zero_add]
        exact (w >>> (64 - b)).isLt
      have hstep : shlStep x k b ret i
          = ret₁.set (i.val + k + 1) (ret₁[i.val + k + 1] + w >>> (64 - b)) := by
        rw [shlStep, dif_pos hj]
      rw [hstep, toNat_set_add ret₁ hj.2 _ hroom, BitVec.toNat_ushiftRight,
        Nat.shiftRight_eq_div_pow]
    · have hstep : shlStep x k b ret i = ret₁ := by rw [shlStep, dif_neg hj]
      rw [hstep]
      by_cases hzero : b = 0
      · have hnone : w.toNat / 2 ^ (64 - b) = 0 := by
          rw [hzero]
          exact Nat.div_eq_of_lt w.isLt
        rw [hnone, Nat.zero_mul]
        exact Nat.ModEq.refl _
      · exact (Nat.ModEq.refl (toNat ⟨ret₁⟩)).add (modEq_zero_of_le (by omega) _)
  have hmod : toNat ⟨shlStep x k b ret i⟩ ≡ shiftedLow x k b (i.val + 1) [MOD 2 ^ 256] := by
    rw [shiftedLow_succ x k hb i.isLt]
    refine hsecond.trans (Nat.ModEq.add_right _ (hfirst.trans (Nat.ModEq.add_right _ ?_)))
    rw [h]
    exact Nat.mod_modEq _ _
  exact (Nat.mod_eq_of_lt (toNat_lt _)).symm.trans hmod

end

/-- After `n` turns the result is the shifted value of the low `n` words. -/
theorem toNat_foldl_shlStep (x : Uint256) (k : ℕ) {b : ℕ} (hb : b < 64) {n : ℕ} (hn : n ≤ 4) :
    toNat ⟨((List.finRange 4).take n).foldl (shlStep x k b) (Vector.replicate 4 0)⟩
      = shiftedLow x k b n % 2 ^ 256 := by
  induction n with
  | zero =>
    have hzero : toNat ⟨Vector.replicate 4 0⟩ = 0 := by decide
    rw [List.take_zero, List.foldl_nil, hzero, shiftedLow, Nat.mul_zero, pow_zero, Nat.mod_one,
      Nat.zero_mul, Nat.zero_mod]
  | succ n ih =>
    have hlt : n < (List.finRange 4).length := by
      rw [List.length_finRange]
      omega
    have hget : (List.finRange 4)[n] = ⟨n, by omega⟩ := List.getElem_finRange _
    rw [List.take_succ_eq_append_getElem hlt, List.foldl_append, List.foldl_cons, List.foldl_nil,
      hget]
    exact toNat_shlStep hb ⟨n, by omega⟩ (ih (by omega))

/-- The shift is multiplication modulo `2 ^ 256`. -/
theorem toNat_shl (x : Uint256) (s : ℕ) : (x.shl s).toNat = x.toNat * 2 ^ s % 2 ^ 256 := by
  have hrun := toNat_foldl_shlStep x (s / 64) (Nat.mod_lt s (show 0 < 64 by omega)) (Nat.le_refl 4)
  have hall : (List.finRange 4).take 4 = List.finRange 4 := rfl
  have hs : 64 * (s / 64) + s % 64 = s := Nat.div_add_mod s 64
  rw [hall, ← shl_eq, shiftedLow, hs, Nat.mod_eq_of_lt (toNat_lt x)] at hrun
  exact hrun

/-! ### The loop does not fail -/

theorem addAt_eq {ret : Vector U64 4} {index y : U64} {j : ℕ} (hindex : index.toNat = j)
    (hj : j < 4) (hroom : ret[j].toNat + y.toNat < 2 ^ 64) :
    addAt ret index y = .ok (ret.set j (ret[j] + y)) := by
  subst hindex
  have hold : ret[index.toNat]? = some ret[index.toNat] := Vector.getElem?_eq_getElem hj
  rw [addAt, hold, Outcome.expect_some, Outcome.ok_bind, addChecked, if_pos hroom,
    Outcome.ok_bind, Outcome.pure_eq]
  congr 1
  apply Vector.ext
  intro q hq
  rw [Vector.getElem_setIfInBounds, Vector.getElem_set]

theorem addChecked_eq {a b : U64} (h : a.toNat + b.toNat < 2 ^ 64) :
    addChecked a b = .ok (a + b) := if_pos h

/-- The room that `toNat_shlStep` found is all that the checks of a turn ask for. -/
theorem shlTurn_eq {x : Uint256} {wordShift bitShift : U64} {ret : Vector U64 4}
    (hword : wordShift.toNat < 2 ^ 63) (hbit : bitShift.toNat < 64) (i : Fin 4)
    (h : toNat ⟨ret⟩ = shiftedLow x wordShift.toNat bitShift.toNat i.val % 2 ^ 256) :
    shlTurn x.words wordShift bitShift ret i
      = .ok (shlStep x wordShift.toNat bitShift.toNat ret i) := by
  have hi := i.isLt
  have hival : (BitVec.ofNat 64 i.val).toNat = i.val :=
    (BitVec.toNat_ofNat i.val 64).trans (Nat.mod_eq_of_lt (by omega))
  have hsum : (BitVec.ofNat 64 i.val).toNat + wordShift.toNat < 2 ^ 64 := by omega
  have hindex : (BitVec.ofNat 64 i.val + wordShift).toNat = i.val + wordShift.toNat := by
    rw [BitVec.toNat_add_of_lt hsum, hival]
  have hone : (1 : U64).toNat = 1 := rfl
  have hnext : (BitVec.ofNat 64 i.val + wordShift).toNat + (1 : U64).toNat < 2 ^ 64 := by omega
  have hindex' : (BitVec.ofNat 64 i.val + wordShift + 1).toNat
      = i.val + wordShift.toNat + 1 := by
    rw [BitVec.toNat_add_of_lt hnext, hindex, hone]
  have hinner : (64 - bitShift).toNat = 64 - bitShift.toNat :=
    BitVec.toNat_sub_of_le (BitVec.le_def.mpr hbit.le)
  -- the shifted part
  set w := x.words.get i with hw
  set ret₁ : Vector U64 4 := if h : bitShift.toNat < 64 ∧ i.val + wordShift.toNat < 4 then
    ret.set (i.val + wordShift.toNat) (ret[i.val + wordShift.toNat] + w <<< bitShift.toNat)
    else ret with hret₁
  have hfirst : shiftPart x.words wordShift bitShift ret i = .ok ret₁ := by
    rw [shiftPart, addChecked_eq hsum, Outcome.ok_bind]
    by_cases hj : i.val + wordShift.toNat < 4
    · have hcond : bitShift < 64 ∧ BitVec.ofNat 64 i.val + wordShift < 4 :=
        ⟨hbit, by rw [BitVec.lt_def, hindex]; exact hj⟩
      rw [if_pos hcond, shlU64, if_pos hbit, Outcome.ok_bind,
        addAt_eq hindex hj (shiftLeft_add_lt w hbit (word_lt h hj)), hret₁, dif_pos ⟨hbit, hj⟩]
    · have hcond : ¬ (bitShift < 64 ∧ BitVec.ofNat 64 i.val + wordShift < 4) := by
        rintro ⟨-, hlt⟩
        rw [BitVec.lt_def, hindex] at hlt
        exact hj hlt
      rw [if_neg hcond, hret₁, dif_neg fun hand => hj hand.2, Outcome.pure_eq]
  -- the carry
  have hpos : bitShift > 0 ↔ bitShift.toNat > 0 := Iff.rfl
  rw [shlTurn, hfirst, Outcome.ok_bind, carryPart]
  by_cases hb : bitShift.toNat > 0
  · rw [if_pos (hpos.mpr hb), addChecked_eq hsum, Outcome.ok_bind, addChecked_eq hnext,
      Outcome.ok_bind]
    by_cases hj : i.val + wordShift.toNat + 1 < 4
    · have hcond : BitVec.ofNat 64 i.val + wordShift + 1 < 4 := by
        rw [BitVec.lt_def, hindex']
        exact hj
      have hsame : ret₁[i.val + wordShift.toNat + 1] = ret[i.val + wordShift.toNat + 1] := by
        rw [hret₁, dif_pos ⟨hbit, by omega⟩, Vector.getElem_set_ne _ _ (by omega)]
      have hroom : ret₁[i.val + wordShift.toNat + 1].toNat
          + (w >>> (64 - bitShift.toNat)).toNat < 2 ^ 64 := by
        rw [hsame, word_eq_zero h hbit hj, Nat.zero_add]
        exact (w >>> (64 - bitShift.toNat)).isLt
      rw [if_pos hcond, shrChecked, hinner, if_pos (by omega), Outcome.ok_bind,
        addAt_eq hindex' hj hroom, shlStep, dif_pos ⟨hb, hj⟩]
      rfl
    · have hcond : ¬ BitVec.ofNat 64 i.val + wordShift + 1 < 4 := by
        rw [BitVec.lt_def, hindex']
        exact hj
      rw [if_neg hcond, shlStep, dif_neg fun hand => hj hand.2, Outcome.pure_eq]
      rfl
  · rw [if_neg fun hand => hb (hpos.mp hand), shlStep, dif_neg fun hand => hb hand.1,
      Outcome.pure_eq]
    rfl

theorem foldlM_shlTurn (x : Uint256) {wordShift bitShift : U64}
    (hword : wordShift.toNat < 2 ^ 63) (hbit : bitShift.toNat < 64) {n : ℕ} (hn : n ≤ 4) :
    ((List.finRange 4).take n).foldlM (shlTurn x.words wordShift bitShift) (Vector.replicate 4 0)
      = .ok (((List.finRange 4).take n).foldl (shlStep x wordShift.toNat bitShift.toNat)
          (Vector.replicate 4 0)) := by
  induction n with
  | zero => rfl
  | succ n ih =>
    have hlt : n < (List.finRange 4).length := by
      rw [List.length_finRange]
      omega
    have hget : (List.finRange 4)[n] = ⟨n, by omega⟩ := List.getElem_finRange _
    have hvalue := toNat_foldl_shlStep x wordShift.toNat hbit (show n ≤ 4 by omega)
    rw [List.take_succ_eq_append_getElem hlt, List.foldlM_append, ih (by omega), Outcome.ok_bind,
      List.foldl_append, hget, List.foldlM_cons, List.foldl_cons,
      shlTurn_eq hword hbit ⟨n, by omega⟩ hvalue]
    rfl

/-- The shift of the code is multiplication modulo `2 ^ 256` and never fails. -/
theorem shl_exact (x : Uint256) (shift : U64) :
    x.shlChecked shift = .ok (x.shl shift.toNat)
      ∧ (x.shl shift.toNat).toNat = x.toNat * 2 ^ shift.toNat % 2 ^ 256
      ∧ (256 ≤ shift.toNat → (x.shl shift.toNat).toNat = 0) := by
  refine ⟨?_, toNat_shl x shift.toNat, fun hlarge => ?_⟩
  · have hdiv : (shift / 64).toNat = shift.toNat / 64 := BitVec.toNat_udiv
    have hmod : (shift % 64).toNat = shift.toNat % 64 := BitVec.toNat_umod
    have hword : (shift / 64).toNat < 2 ^ 63 := by
      have := shift.isLt
      omega
    have hbit : (shift % 64).toNat < 64 := by omega
    have hall : (List.finRange 4).take 4 = List.finRange 4 := rfl
    have hrun := foldlM_shlTurn x hword hbit (Nat.le_refl 4)
    rw [hall, hdiv, hmod] at hrun
    rw [shlChecked, hrun, Outcome.ok_bind, shl_eq]
    rfl
  · have hdvd : 2 ^ 256 ∣ x.toNat * 2 ^ shift.toNat :=
      Dvd.dvd.mul_left (pow_dvd_pow 2 hlarge) _
    rw [toNat_shl, Nat.mod_eq_zero_of_dvd hdvd]

end Uint256

/-! ### Compact targets -/

/-- The exponent of a compact target. -/
def compactExponent (bits : U32) : ℕ := (bits >>> 24).toNat

/-- The mantissa of a compact target. -/
def compactMantissa (bits : U32) : ℕ := (bits &&& 0xFFFFFF).toNat

/-- The integer that a compact target stands for. -/
def compactValue (bits : U32) : ℕ :=
  ⌊(compactMantissa bits : ℚ) * 256 ^ ((compactExponent bits : ℤ) - 3)⌋₊

/-- `bits` is decoded to its numeric value, and to zero when the sign bit is set. -/
def CompactExact (bits : U32) : Prop :=
  (bits.getLsbD 23 = true → (u256FromCompactTarget bits).toNat = 0)
    ∧ (bits.getLsbD 23 = false → compactValue bits < 2 ^ 256 →
      (u256FromCompactTarget bits).toNat = compactValue bits)

theorem compactMantissa_eq (bits : U32) : compactMantissa bits = bits.toNat % 2 ^ 24 := by
  have hmask : (0xFFFFFF : U32).toNat = 2 ^ 24 - 1 := rfl
  rw [compactMantissa, BitVec.toNat_and, hmask, Nat.and_two_pow_sub_one_eq_mod]

theorem compactMantissa_lt (bits : U32) : compactMantissa bits < 2 ^ 24 := by
  rw [compactMantissa_eq]
  exact Nat.mod_lt _ (by positivity)

/-- The sign bit is the highest bit of the mantissa. -/
theorem sign_iff (bits : U32) : bits.getLsbD 23 = true ↔ 0x7FFFFF < compactMantissa bits := by
  rw [compactMantissa_eq, BitVec.getLsbD, Nat.testBit_eq_decide_div_mod_eq, decide_eq_true_iff]
  omega

theorem compactValue_of_le {bits : U32} (h : compactExponent bits ≤ 3) :
    compactValue bits = compactMantissa bits / 2 ^ (8 * (3 - compactExponent bits)) := by
  obtain ⟨d, hd⟩ := Nat.exists_eq_add_of_le h
  have hexp : ((compactExponent bits : ℤ) - 3) = -(d : ℤ) := by omega
  have hsub : 3 - compactExponent bits = d := by omega
  have hpow : (2 : ℕ) ^ (8 * d) = 256 ^ d := by
    rw [pow_mul]
    norm_num
  rw [compactValue, hexp, hsub, zpow_neg, zpow_natCast, ← div_eq_mul_inv, hpow]
  have hfloor : ⌊(compactMantissa bits : ℚ) / ((256 ^ d : ℕ) : ℚ)⌋₊
      = compactMantissa bits / 256 ^ d := Nat.floor_div_eq_div _ _
  rw [← hfloor]
  push_cast
  rfl

theorem compactValue_of_gt {bits : U32} (h : 3 < compactExponent bits) :
    compactValue bits = compactMantissa bits * 2 ^ (8 * (compactExponent bits - 3)) := by
  obtain ⟨d, hd⟩ := Nat.exists_eq_add_of_le h.le
  have hexp : ((compactExponent bits : ℤ) - 3) = (d : ℤ) := by omega
  have hsub : compactExponent bits - 3 = d := by omega
  have hpow : (2 : ℕ) ^ (8 * d) = 256 ^ d := by
    rw [pow_mul]
    norm_num
  have hcast : (compactMantissa bits : ℚ) * 256 ^ d
      = ((compactMantissa bits * 256 ^ d : ℕ) : ℚ) := by
    push_cast
    rfl
  rw [compactValue, hexp, hsub, zpow_natCast, hpow, hcast, Nat.floor_natCast]

theorem toNat_fromU64 (w : U64) : (Uint256.fromU64 w).toNat = w.toNat := by
  simp [Uint256.fromU64, Uint256.toNat]

/-- The branch of the small exponents shifts the mantissa before its sign is tested. -/
theorem toNat_compact_of_le {bits : U32} (h : compactExponent bits ≤ 3) :
    (u256FromCompactTarget bits).toNat
      = if compactValue bits > 0x7FFFFF then 0 else compactValue bits := by
  set mant : U32 := (bits &&& 0xFFFFFF) >>> (8 * (3 - compactExponent bits)) with hmant
  have hvalue : mant.toNat = compactValue bits := by
    rw [hmant, BitVec.toNat_ushiftRight, Nat.shiftRight_eq_div_pow, compactValue_of_le h,
      compactMantissa]
  have hcode : u256FromCompactTarget bits = if mant > 0x7FFFFF then ⟨Vector.replicate 4 0⟩
      else (Uint256.fromU64 (mant.setWidth 64)).shl 0 := by
    have hE : (bits >>> 24).toNat ≤ 3 := h
    simp only [u256FromCompactTarget, if_pos hE]
    rfl
  have hlt := mant.isLt
  have hwide : (mant.setWidth 64).toNat = mant.toNat :=
    (BitVec.toNat_setWidth 64 mant).trans (Nat.mod_eq_of_lt (by omega))
  have htest : mant > 0x7FFFFF ↔ compactValue bits > 0x7FFFFF := by
    rw [← hvalue]
    exact Iff.rfl
  rw [hcode]
  by_cases hbig : compactValue bits > 0x7FFFFF
  · rw [if_pos (htest.mpr hbig), if_pos hbig]
    rfl
  · rw [if_neg (fun hand => hbig (htest.mp hand)), if_neg hbig, Uint256.toNat_shl, toNat_fromU64,
      hwide, hvalue, pow_zero, Nat.mul_one]
    exact Nat.mod_eq_of_lt (by omega)

theorem toNat_compact_of_gt {bits : U32} (h : 3 < compactExponent bits) :
    (u256FromCompactTarget bits).toNat
      = if compactMantissa bits > 0x7FFFFF then 0 else compactValue bits % 2 ^ 256 := by
  have hcode : u256FromCompactTarget bits
      = if bits &&& 0xFFFFFF > 0x7FFFFF then ⟨Vector.replicate 4 0⟩
        else (Uint256.fromU64 ((bits &&& 0xFFFFFF).setWidth 64)).shl
          (8 * (compactExponent bits - 3)) := by
    have hE : ¬ (bits >>> 24).toNat ≤ 3 := Nat.not_le.mpr h
    simp only [u256FromCompactTarget, if_neg hE]
    rfl
  have hlt := (bits &&& 0xFFFFFF).isLt
  have hwide : ((bits &&& 0xFFFFFF).setWidth 64).toNat = compactMantissa bits :=
    (BitVec.toNat_setWidth 64 _).trans (Nat.mod_eq_of_lt (by omega))
  have htest : bits &&& 0xFFFFFF > 0x7FFFFF ↔ compactMantissa bits > 0x7FFFFF := Iff.rfl
  rw [hcode]
  by_cases hbig : compactMantissa bits > 0x7FFFFF
  · rw [if_pos (htest.mpr hbig), if_pos hbig]
    rfl
  · rw [if_neg (fun hand => hbig (htest.mp hand)), if_neg hbig, Uint256.toNat_shl, toNat_fromU64,
      hwide, compactValue_of_gt h]

/-- A compact target is decoded to its numeric value unless it is negative and its mantissa
is shifted right by one or two bytes, which clears the sign bit before it is tested. -/
theorem compact_target_exact_iff (bits : U32) :
    CompactExact bits
      ↔ ¬ (bits.getLsbD 23 = true ∧ (compactExponent bits = 1 ∨ compactExponent bits = 2)) := by
  have hlt := compactMantissa_lt bits
  rw [CompactExact, ← Bool.not_eq_true, sign_iff]
  by_cases h : compactExponent bits ≤ 3
  · rw [toNat_compact_of_le h, compactValue_of_le h]
    have hcases : compactExponent bits = 0 ∨ compactExponent bits = 1 ∨ compactExponent bits = 2
        ∨ compactExponent bits = 3 := by omega
    rcases hcases with hE | hE | hE | hE <;> rw [hE] <;> norm_num <;> omega
  · rw [toNat_compact_of_gt (by omega)]
    have hfit : compactValue bits < 2 ^ 256 → compactValue bits % 2 ^ 256 = compactValue bits :=
      Nat.mod_eq_of_lt
    split
    · omega
    · omega

/-- The negative mantissa `0x800000` with exponent 2 is read as the positive `0x8000`. -/
theorem negative_compact_is_read : ¬ CompactExact 0x02800000 := by
  rintro ⟨hneg, -⟩
  have hvalue : (u256FromCompactTarget 0x02800000).toNat = 0x8000 := by decide
  have hzero := hneg (by decide)
  rw [hvalue] at hzero
  exact absurd hzero (by decide)
