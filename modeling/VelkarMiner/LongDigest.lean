/-
The long digest of the host (`digest_long_cpu` of `src/gpu.rs`).

The loop counts the bytes it has produced; every copy starts where the one before ended, and
the loop stops with 33 to 64 bytes left for the last digest.

* `digestLongTraced_eq` — the code with a log of the bytes it writes;
* `hPrime_eq_links` — H' link by link;
* `digest_long_cpu_is_hPrime` — the digest is H' for every length, and every byte is
  written once.
-/
import VelkarMiner.FirstBlocks

open Bytes Rust

/-! ### The code with a log -/

/-- `copy_from_slice` that logs the indexes it writes. -/
def copyTraced (out : List Byte × List ℕ) (a b : ℕ) (src : List Byte) :
    Outcome Error (List Byte × List ℕ) := do
  let written ← copyFromSlice out.1 a b src
  pure (written, out.2 ++ (List.range (b - a)).map (a + ·))

def digestLongLoopTraced (c : Crates) (len : ℕ) (out : List Byte × List ℕ) (buffer : List Byte)
    (produced : ℕ) : Outcome Error ((List Byte × List ℕ) × List Byte × ℕ) :=
  if 64 < len - produced then do
    let buffer ← hashLength c 64 buffer
    let head ← sliceOf buffer 0 32
    let out ← copyTraced out produced (produced + 32) head
    digestLongLoopTraced c len out buffer (produced + 32)
  else pure (out, buffer, produced)
termination_by len - produced

/-- `digest_long_cpu` with the indexes of the bytes it writes, in order. -/
def digestLongTraced (c : Crates) (out input : List Byte) : Outcome Error (List Byte × List ℕ) :=
  let data := leBytes (BitVec.ofNat 32 out.length) ++ input
  if out.length ≤ 64 then do
    let digest ← hashLength c out.length data
    copyTraced (out, []) 0 out.length digest
  else do
    let buffer ← hashLength c 64 data
    let head ← sliceOf buffer 0 32
    let written ← copyTraced (out, []) 0 32 head
    let (written, buffer, produced) ← digestLongLoopTraced c out.length written buffer 32
    let digest ← hashLength c (out.length - produced) buffer
    copyTraced written produced out.length digest

/-! ### The log -/

/-- A copy that starts where the one before ended. -/
theorem copyTraced_range (out src : List Byte) (a b : ℕ) :
    copyTraced (out, List.range a) a b src
      = (copyFromSlice out a b src >>= fun written => pure (written, List.range b)) := by
  rw [copyTraced]
  by_cases hab : a ≤ b
  · have hrange : List.range a ++ (List.range (b - a)).map (a + ·) = List.range b := by
      rw [← List.range_add, Nat.add_sub_cancel' hab]
    rw [hrange]
  · have hpanic : (copyFromSlice out a b src : Outcome Error (List Byte)) = .panic :=
      if_neg fun h => hab h.1
    rw [hpanic]
    rfl

/-- All bytes before `produced` have been written, once and in order. -/
theorem digestLongLoopTraced_eq (c : Crates) (len : ℕ) (out buffer : List Byte) (produced : ℕ) :
    digestLongLoopTraced c len (out, List.range produced) buffer produced
      = (digestLongLoop c len out buffer produced >>= fun r =>
          pure ((r.1, List.range r.2.2), r.2.1, r.2.2)) := by
  induction out, buffer, produced using digestLongLoop.induct len with
  | case1 out buffer produced hmore ih =>
    rw [digestLongLoopTraced, digestLongLoop, if_pos hmore, if_pos hmore]
    simp only [copyTraced_range, bind_assoc, pure_bind, ih]
  | case2 out buffer produced hstop =>
    rw [digestLongLoopTraced, digestLongLoop, if_neg hstop, if_neg hstop, pure_bind]

theorem digestLongTraced_eq (c : Crates) (out input : List Byte) :
    digestLongTraced c out input
      = (digestLongCpu c out input >>= fun digest => pure (digest, List.range out.length)) := by
  have hnil : ([] : List ℕ) = List.range 0 := rfl
  rw [digestLongTraced, digestLongCpu, hnil]
  split
  · simp only [copyTraced_range, bind_assoc]
  · simp only [copyTraced_range, digestLongLoopTraced_eq, bind_assoc, pure_bind]

/-! ### The links of H' -/

/-- `V_{k+1}`. -/
def hPrimeLink (T : ℕ) (A : List Byte) : ℕ → List Byte
  | 0 => Blake2b.hash 64 [] (Argon2.le32 T ++ A)
  | k + 1 => Blake2b.hash 64 [] (hPrimeLink T A k)

/-- `n` links from `V_{k+1}` on and the last digest. -/
theorem hPrimeChain_link (T : ℕ) (A : List Byte) (last n k : ℕ) :
    Argon2.hPrimeChain n (hPrimeLink T A k) last
      = ((List.range n).map fun i => (hPrimeLink T A (k + 1 + i)).take 32).flatten
        ++ Blake2b.hash last [] (hPrimeLink T A (k + n)) := by
  induction n generalizing k with
  | zero => rfl
  | succ n ih =>
    have hshift : ∀ i, k + 1 + 1 + i = k + 1 + (i + 1) := fun i => by omega
    have hend : k + 1 + n = k + (n + 1) := by omega
    rw [Argon2.hPrimeChain, ← hPrimeLink, ih (k + 1), List.range_succ_eq_map, List.map_cons,
      List.map_map, List.flatten_cons, List.append_assoc, hend]
    simp only [Function.comp_def, Nat.succ_eq_add_one, hshift, Nat.add_zero]

/-- `H'` of more than 64 bytes: the first halves of `V_1, …, V_r` and a last digest. -/
theorem hPrime_eq_links {T r : ℕ} (hT : 64 < T) (hr : r = (T + 31) / 32 - 2) (A : List Byte) :
    Argon2.hPrime T A = ((List.range r).map fun i => (hPrimeLink T A i).take 32).flatten
      ++ Blake2b.hash (T - 32 * r) [] (hPrimeLink T A (r - 1)) := by
  obtain ⟨n, hn⟩ : ∃ n, r = n + 1 := ⟨r - 1, by omega⟩
  have hshift : ∀ i, 0 + 1 + i = i + 1 := fun i => by omega
  have hzero : 0 + n = n := Nat.zero_add n
  rw [Argon2.hPrime, if_neg (by omega)]
  simp only [← hr]
  rw [hn, Argon2.hPrimeChain, ← hPrimeLink, hPrimeChain_link, List.range_succ_eq_map,
    List.map_cons, List.map_map, List.flatten_cons, List.append_assoc, hzero,
    Nat.add_sub_cancel]
  simp only [Function.comp_def, Nat.succ_eq_add_one, hshift]

/-! ### The digest -/

/-- For every length the code ends without a panic, writes the bytes of the output once and in
order, and leaves H' of RFC 9106 there. -/
theorem digest_long_cpu_is_hPrime {c : Crates} (hc : c.Blake2bRight) (out input : List Byte)
    (hout : 1 ≤ out.length) :
    digestLongCpu c out input = .ok (Argon2.hPrime out.length input)
      ∧ digestLongTraced c out input
        = .ok (Argon2.hPrime out.length input, List.range out.length)
      ∧ (out.length ≤ 64 → Argon2.hPrime out.length input
        = Blake2b.hash out.length [] (Argon2.le32 out.length ++ input))
      ∧ (64 < out.length →
        let r := (out.length + 31) / 32 - 2
        33 ≤ out.length - 32 * r ∧ out.length - 32 * r ≤ 64
          ∧ Argon2.hPrime out.length input
            = ((List.range r).map fun i => (hPrimeLink out.length input i).take 32).flatten
              ++ Blake2b.hash (out.length - 32 * r) [] (hPrimeLink out.length input (r - 1))) := by
  have hdigest := digestLongCpu_eq hc hout input
  refine ⟨hdigest, ?_, fun hshort => if_pos hshort, fun hlong => ⟨?_, ?_, ?_⟩⟩
  · rw [digestLongTraced_eq, hdigest]
    rfl
  · omega
  · omega
  · exact hPrime_eq_links hlong rfl input

/-- 97 bytes take two links and a last digest of 33 bytes. -/
theorem digest_long_cpu_is_hPrime_97 :
    digestLongTraced blake2bCrates (List.replicate 97 0) []
      = .ok (Argon2.hPrime 97 [], List.range 97) := by
  have h := (digest_long_cpu_is_hPrime blake2bCrates_right (List.replicate 97 0) []
    (by rw [List.length_replicate]; omega)).2.1
  rw [List.length_replicate] at h
  exact h
