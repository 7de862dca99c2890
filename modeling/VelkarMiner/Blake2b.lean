/-
The hash function BLAKE2b, after RFC 7693.

* `compress` — the compression function F (section 3.2);
* `digest` — the chaining value after all blocks of a keyed or unkeyed message
  (section 3.3), blocks zero padded and the key, when there is one, a block of
  its own in front;
* `hash nn key msg` — the first `nn` bytes of the digest.
-/
import VelkarMiner.Words

namespace Blake2b

open Bytes

/-- The initialization vector. -/
def IV : Vector U64 8 :=
  #v[0x6a09e667f3bcc908, 0xbb67ae8584caa73b, 0x3c6ef372fe94f82b, 0xa54ff53a5f1d36f1,
    0x510e527fade682d1, 0x9b05688c2b3e6c1f, 0x1f83d9abfb41bd6b, 0x5be0cd19137e2179]

/-- The message schedule: row `r` is the permutation used in round `r`. -/
def SIGMA : Vector (Vector (Fin 16) 16) 10 :=
  #v[#v[0, 1, 2, 3, 4, 5, 6, 7, 8, 9, 10, 11, 12, 13, 14, 15],
    #v[14, 10, 4, 8, 9, 15, 13, 6, 1, 12, 0, 2, 11, 7, 5, 3],
    #v[11, 8, 12, 0, 5, 2, 15, 13, 10, 14, 3, 6, 7, 1, 9, 4],
    #v[7, 9, 3, 1, 13, 12, 11, 14, 2, 6, 5, 10, 4, 0, 15, 8],
    #v[9, 0, 5, 7, 2, 4, 10, 15, 14, 1, 11, 12, 6, 8, 3, 13],
    #v[2, 12, 6, 10, 0, 11, 8, 3, 4, 13, 7, 5, 15, 14, 1, 9],
    #v[12, 5, 1, 15, 14, 13, 4, 10, 0, 7, 6, 3, 9, 2, 8, 11],
    #v[13, 11, 7, 14, 12, 1, 3, 9, 5, 0, 15, 4, 8, 6, 2, 10],
    #v[6, 15, 14, 9, 11, 3, 0, 8, 12, 2, 13, 7, 1, 4, 10, 5],
    #v[10, 2, 8, 4, 7, 6, 1, 5, 15, 11, 9, 14, 3, 12, 13, 0]]

/-- The mixing function G. -/
def G (v : Vector U64 16) (a b c d : Fin 16) (x y : U64) : Vector U64 16 :=
  let v := v.set a (v[a] + v[b] + x)
  let v := v.set d ((v[d] ^^^ v[a]).rotateRight 32)
  let v := v.set c (v[c] + v[d])
  let v := v.set b ((v[b] ^^^ v[c]).rotateRight 24)
  let v := v.set a (v[a] + v[b] + y)
  let v := v.set d ((v[d] ^^^ v[a]).rotateRight 16)
  let v := v.set c (v[c] + v[d])
  v.set b ((v[b] ^^^ v[c]).rotateRight 63)

/-- One round of F with message order `s`. -/
def round (m : Vector U64 16) (s : Vector (Fin 16) 16) (v : Vector U64 16) : Vector U64 16 :=
  let v := G v 0 4 8 12 m[s[0]] m[s[1]]
  let v := G v 1 5 9 13 m[s[2]] m[s[3]]
  let v := G v 2 6 10 14 m[s[4]] m[s[5]]
  let v := G v 3 7 11 15 m[s[6]] m[s[7]]
  let v := G v 0 5 10 15 m[s[8]] m[s[9]]
  let v := G v 1 6 11 12 m[s[10]] m[s[11]]
  let v := G v 2 7 8 13 m[s[12]] m[s[13]]
  G v 3 4 9 14 m[s[14]] m[s[15]]

/-- The compression function F, for a byte counter `t` of 128 bits. -/
def compress (h : Vector U64 8) (m : Vector U64 16) (t : ℕ) (last : Bool) : Vector U64 8 :=
  let v : Vector U64 16 := h ++ IV
  let v := v.set 12 (v[12] ^^^ BitVec.ofNat 64 t)
  let v := v.set 13 (v[13] ^^^ BitVec.ofNat 64 (t / 2 ^ 64))
  let v := if last then v.set 14 (~~~ v[14]) else v
  let v := (List.range 12).foldl (fun v r => round m (SIGMA[r % 10]) v) v
  Vector.ofFn fun i => h[i] ^^^ v[i.val] ^^^ v[i.val + 8]

/-! ### Messages -/

/-- Block `i` of a byte string, zero padded. -/
def blockAt (data : List Byte) (i : ℕ) : Vector U64 16 :=
  Vector.ofFn fun k => ofLe 8 fun b => data.getD (128 * i + 8 * k.val + b) 0

/-- The number of blocks: at least one. -/
def numBlocks (len : ℕ) : ℕ := max 1 ((len + 127) / 128)

/-- The data blocks of a message: a nonempty key fills a block of its own. -/
def keyed (key msg : List Byte) : List Byte :=
  if key = [] then msg else key ++ List.replicate (128 - key.length) 0 ++ msg

/-- The initial chaining value for a digest of `nn` bytes and a key of `kk` bytes. -/
def init (kk nn : ℕ) : Vector U64 8 :=
  IV.set 0 (IV[0] ^^^ 0x01010000#64 ^^^ BitVec.ofNat 64 kk <<< 8 ^^^ BitVec.ofNat 64 nn)

/-- The chaining value after the first `n` blocks, none of them the last. -/
def absorb (h : Vector U64 8) (data : List Byte) (n : ℕ) : Vector U64 8 :=
  (List.range n).foldl (fun h i => compress h (blockAt data i) (128 * (i + 1)) false) h

/-- The chaining value after the whole message. -/
def digest (nn : ℕ) (key msg : List Byte) : Vector U64 8 :=
  let data := keyed key msg
  let dd := numBlocks data.length
  compress (absorb (init key.length nn) data (dd - 1)) (blockAt data (dd - 1)) data.length true

/-- BLAKE2b with a digest of `nn ≤ 64` bytes. -/
def hash (nn : ℕ) (key msg : List Byte) : List Byte :=
  (bytesOfWords (digest nn key msg)).toList.take nn

theorem length_hash {nn : ℕ} (h : nn ≤ 64) (key msg : List Byte) :
    (hash nn key msg).length = nn := by
  simp [hash, h]

theorem absorb_succ (h : Vector U64 8) (data : List Byte) (n : ℕ) :
    absorb h data (n + 1)
      = compress (absorb h data n) (blockAt data n) (128 * (n + 1)) false := by
  rw [absorb, List.range_succ, List.foldl_append, ← absorb]
  rfl

end Blake2b
