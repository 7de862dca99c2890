/-
The connection to a node (`VelkardHandler` of `src/client.rs`).

For every template the handler asks for it decides anew whom the template is to pay: the
devfund while the count of its requests, modulo 10 000, is at most the percentage in
hundredths, and the miner otherwise.

* `count_mod_lt` — residues below a bound in an initial segment;
* `calls_run` — the requests of a run of calls;
* `devfund_count` — how many of them, in any window, are for the devfund;
* `devfund_share_iff` — when that is the percentage.
-/
import VelkarMiner.Rust
import Mathlib.Data.Nat.Count

open Rust

/-! ### Residues below a bound -/

theorem count_lt_of_le {t : ℕ} {n : ℕ} : Nat.count (fun x => x < t) n = min n t := by
  induction n with
  | zero => simp
  | succ n ih =>
    rw [Nat.count_succ, ih]
    split <;> omega

/-- Among the numbers below `n`, those whose residue modulo `m` is below `t`. -/
theorem count_mod_lt {m t : ℕ} (ht : t ≤ m) (n : ℕ) :
    Nat.count (fun x => x % m < t) n = n / m * t + min (n % m) t := by
  -- a remainder of less than a period
  have hrest : ∀ q r, r ≤ m → Nat.count (fun x => (m * q + x) % m < t) r = min r t := by
    intro q r hr
    rw [← count_lt_of_le]
    refine List.countP_congr fun x hx => ?_
    have hlt := List.mem_range.mp hx
    simp only [decide_eq_true_eq]
    rw [Nat.mul_add_mod, Nat.mod_eq_of_lt (by omega)]
  have hperiods : ∀ q, Nat.count (fun x => x % m < t) (m * q) = q * t := by
    intro q
    induction q with
    | zero => simp
    | succ q ih =>
      rw [Nat.mul_succ, Nat.count_add, ih, hrest q m le_rfl, min_eq_right ht, Nat.succ_mul]
  obtain rfl | hm := Nat.eq_zero_or_pos m
  · obtain rfl : t = 0 := by omega
    simp
  · conv_lhs => rw [← Nat.div_add_mod n m]
    rw [Nat.count_add, hperiods, hrest _ _ (Nat.mod_lt n hm).le]

/-- The same for numbers from `s` on. -/
theorem count_shift_mod_lt {m t : ℕ} (ht : t ≤ m) (s n : ℕ) :
    Nat.count (fun x => (s + x) % m < t) n + (s / m * t + min (s % m) t)
      = (s + n) / m * t + min ((s + n) % m) t := by
  rw [← count_mod_lt ht s, ← count_mod_lt ht (s + n), Nat.count_add, Nat.add_comm]

/-! ### The handler -/

/-- The version of the package. -/
def EXTRA_DATA : Str := "0.2.6".toList

structure GetBlockTemplateRequest where
  payAddress : Str
  extraData : Str

structure VelkardHandler where
  minerAddress : Str
  mineWhenNotSynced : Bool
  devfundAddress : Option Str
  devfundPercent : U16
  blockTemplateCtr : U64
  extraData : Str

namespace VelkardHandler

/-- The handler of a new connection. -/
def connect (minerAddress : Str) (mineWhenNotSynced : Bool) (userAgentSuffix : Option Str) :
    VelkardHandler where
  minerAddress := minerAddress
  mineWhenNotSynced := mineWhenNotSynced
  devfundAddress := none
  devfundPercent := 0
  blockTemplateCtr := 0
  extraData := match userAgentSuffix with
    | some suffix => EXTRA_DATA ++ '/' :: suffix
    | none => EXTRA_DATA

def addDevfund (self : VelkardHandler) (address : Str) (percent : U16) : VelkardHandler :=
  { self with devfundAddress := some address, devfundPercent := percent }

/-- Whom a template is to pay. -/
def payAddress (self : VelkardHandler) : Str :=
  match self.devfundAddress with
  | some devfundAddress =>
    if (self.blockTemplateCtr % 10000).setWidth 16 ≤ self.devfundPercent then devfundAddress
    else self.minerAddress
  | none => self.minerAddress

/-- `client_get_block_template`, with the message that it hands to `client_send`; the counter
is incremented in a build with (`true`) or without overflow checks. -/
def clientGetBlockTemplate (checks : Bool) :
    Method VelkardHandler Error GetBlockTemplateRequest := fun self =>
  if checks ∧ self.blockTemplateCtr = BitVec.allOnes 64 then (.panic, self)
  else
    (.ok ⟨self.payAddress, self.extraData⟩,
      { self with blockTemplateCtr := self.blockTemplateCtr + 1 })

/-- `n` calls, with their messages. -/
def calls (checks : Bool) : ℕ → Method VelkardHandler Error (List GetBlockTemplateRequest)
  | 0 => pure []
  | n + 1 => do
    let request ← clientGetBlockTemplate checks
    let requests ← calls checks n
    pure (request :: requests)

/-! ### The requests of a run -/

/-- The handler at another count. -/
def atCtr (self : VelkardHandler) (ctr : U64) : VelkardHandler :=
  { self with blockTemplateCtr := ctr }

/-- The requests of consecutive calls. -/
theorem calls_run {checks : Bool} {n : ℕ} {self self' : VelkardHandler}
    {requests : List GetBlockTemplateRequest} (h : calls checks n self = (.ok requests, self')) :
    requests = (List.range n).map fun i =>
      ⟨(self.atCtr (self.blockTemplateCtr + BitVec.ofNat 64 i)).payAddress, self.extraData⟩ := by
  induction n generalizing self self' requests with
  | zero => exact (Outcome.ok.inj (congrArg Prod.fst h)).symm
  | succ n ih =>
    rw [calls, Method.bind_run, clientGetBlockTemplate] at h
    split at h
    case h_1 request self₁ hfirst =>
      split at hfirst
      case isTrue => cases hfirst
      case isFalse =>
        obtain ⟨hrequest, rfl⟩ := Prod.mk.inj hfirst
        obtain rfl := Outcome.ok.inj hrequest
        rw [Method.bind_run] at h
        split at h
        case h_1 rest self₂ hrest =>
          obtain rfl : _ = requests := Outcome.ok.inj (congrArg Prod.fst h)
          rw [ih hrest, List.range_succ_eq_map, List.map_cons, List.map_map]
          congr 1
          · simp [atCtr]
          · refine List.map_congr_left fun i _ => ?_
            have hctr : self.blockTemplateCtr + 1 + BitVec.ofNat 64 i
                = self.blockTemplateCtr + BitVec.ofNat 64 (i + 1) := by
              rw [BitVec.ofNat_add, BitVec.add_comm (BitVec.ofNat 64 i), ← BitVec.add_assoc]
              rfl
            show GetBlockTemplateRequest.mk (atCtr _ _).payAddress _ = _
            rw [hctr]
            rfl
        case h_2 => cases h
        case h_3 => cases h
    case h_2 => cases h
    case h_3 => cases h

/-- The request at a count pays the devfund when the residue is at most the percentage. -/
theorem payAddress_addDevfund (self : VelkardHandler) (address : Str) (percent : U16) :
    (self.addDevfund address percent).payAddress
      = if self.blockTemplateCtr.toNat % 10000 ≤ percent.toNat then address
        else self.minerAddress := by
  have hres : ((self.blockTemplateCtr % 10000).setWidth 16 : U16).toNat
      = self.blockTemplateCtr.toNat % 10000 := by
    rw [BitVec.toNat_setWidth, BitVec.toNat_umod]
    have := Nat.mod_lt self.blockTemplateCtr.toNat (show 0 < 10000 by norm_num)
    exact Nat.mod_eq_of_lt (by
      show self.blockTemplateCtr.toNat % 10000 < 2 ^ 16
      omega)
  show (if (self.blockTemplateCtr % 10000).setWidth 16 ≤ percent then address
    else self.minerAddress) = _
  simp only [BitVec.le_def, hres]

/-! ### Counting -/

/-- Of 10 000 consecutive counts one more than the percentage are for the devfund. -/
theorem devfund_count {p : ℕ} (hp : p < 10000) {k : ℕ} (hk : k + 10000 ≤ 2 ^ 64) :
    Nat.count (fun i => (k + i) % 2 ^ 64 % 10000 ≤ p) 10000 = p + 1 := by
  have hplain : Nat.count (fun i => (k + i) % 2 ^ 64 % 10000 ≤ p) 10000
      = Nat.count (fun i => (k + i) % 10000 < p + 1) 10000 := by
    refine List.countP_congr fun i hi => ?_
    have hlt := List.mem_range.mp hi
    simp only [decide_eq_true_eq]
    rw [Nat.mod_eq_of_lt (by omega : k + i < 2 ^ 64), Nat.lt_succ_iff]
  have hcount := count_shift_mod_lt (show p + 1 ≤ 10000 by omega) k 10000
  rw [Nat.add_div_right _ (by norm_num), Nat.add_mod_right, Nat.succ_mul] at hcount
  rw [hplain]
  omega

/-- Across the end of `u64` it is another number, but not the percentage. -/
theorem devfund_count_wrapped {p j : ℕ} (hp : p < 10000) (hpos : 0 < j) (hj : j < 10000) :
    Nat.count (fun i => (2 ^ 64 - j + i) % 2 ^ 64 % 10000 ≤ p) 10000 ≠ p := by
  have hlen : Nat.count (fun i => (2 ^ 64 - j + i) % 2 ^ 64 % 10000 ≤ p) 10000
      = Nat.count (fun i => (2 ^ 64 - j + i) % 2 ^ 64 % 10000 ≤ p) (j + (10000 - j)) :=
    congrArg _ (Nat.add_sub_cancel' hj.le).symm
  have hbefore : Nat.count (fun i => (2 ^ 64 - j + i) % 2 ^ 64 % 10000 ≤ p) j
      = Nat.count (fun i => (2 ^ 64 - j + i) % 10000 < p + 1) j := by
    refine List.countP_congr fun i hi => ?_
    have hlt := List.mem_range.mp hi
    simp only [decide_eq_true_eq]
    rw [Nat.mod_eq_of_lt (by omega : 2 ^ 64 - j + i < 2 ^ 64), Nat.lt_succ_iff]
  have hafter : Nat.count (fun i => (2 ^ 64 - j + (j + i)) % 2 ^ 64 % 10000 ≤ p) (10000 - j)
      = Nat.count (fun i => i % 10000 < p + 1) (10000 - j) := by
    refine List.countP_congr fun i hi => ?_
    have hlt := List.mem_range.mp hi
    simp only [decide_eq_true_eq]
    rw [show 2 ^ 64 - j + (j + i) = 2 ^ 64 + i by omega, Nat.add_mod_left,
      Nat.mod_eq_of_lt (by omega : i < 2 ^ 64), Nat.lt_succ_iff]
  have hfirst := count_shift_mod_lt (show p + 1 ≤ 10000 by omega) (2 ^ 64 - j) j
  have hsecond := count_mod_lt (show p + 1 ≤ 10000 by omega) (10000 - j)
  rw [Nat.div_eq_of_lt (by omega : 10000 - j < 10000), Nat.zero_mul] at hsecond
  rw [hlen, Nat.count_add, hbefore, hafter, hsecond]
  rw [show 2 ^ 64 - j + j = 2 ^ 64 by omega] at hfirst
  generalize Nat.count (fun i => (2 ^ 64 - j + i) % 10000 < p + 1) j = first at hfirst
  obtain ⟨hq, hr, hle⟩ | ⟨hq, hr, hlt⟩ : ((2 ^ 64 - j) / 10000 = 1844674407370955
      ∧ (2 ^ 64 - j) % 10000 = 1616 - j ∧ j ≤ 1616)
      ∨ ((2 ^ 64 - j) / 10000 = 1844674407370954
      ∧ (2 ^ 64 - j) % 10000 = 11616 - j ∧ 1616 < j) := by omega
  · rw [hq, hr] at hfirst
    omega
  · rw [hq, hr] at hfirst
    omega

/-- Below the full percentage no window has the share. -/
theorem devfund_count_ne {p : ℕ} (hp : p < 10000) (k : ℕ) :
    Nat.count (fun i => (k + i) % 2 ^ 64 % 10000 ≤ p) 10000 ≠ p := by
  have hreduce : Nat.count (fun i => (k + i) % 2 ^ 64 % 10000 ≤ p) 10000
      = Nat.count (fun i => (k % 2 ^ 64 + i) % 2 ^ 64 % 10000 ≤ p) 10000 := by
    refine List.countP_congr fun i _ => ?_
    simp only [Nat.mod_add_mod]
  have hs : k % 2 ^ 64 < 2 ^ 64 := Nat.mod_lt _ (by norm_num)
  rw [hreduce]
  generalize k % 2 ^ 64 = s at hs
  obtain hin | hout := Nat.lt_or_ge (2 ^ 64) (s + 10000)
  · obtain ⟨j, hj, rfl⟩ : ∃ j, (0 < j ∧ j < 10000) ∧ s = 2 ^ 64 - j :=
      ⟨2 ^ 64 - s, by omega, by omega⟩
    exact devfund_count_wrapped hp hj.1 hj.2
  · rw [devfund_count hp hout]
    omega

/-- The number of requests that pay an address. -/
def requestsFor (address : Str) (requests : List GetBlockTemplateRequest) : ℕ :=
  requests.countP fun request => request.payAddress = address

/-- The requests of a window in a run on a connection. -/
theorem window_requests {checks : Bool} {minerAddress address : Str} {mineWhenNotSynced : Bool}
    {userAgentSuffix : Option Str} {percent : U16} {n k : ℕ} (hk : k + 10000 ≤ n)
    {requests : List GetBlockTemplateRequest} {self' : VelkardHandler}
    (h : calls checks n ((connect minerAddress mineWhenNotSynced userAgentSuffix).addDevfund
      address percent) = (.ok requests, self')) :
    ((requests.drop k).take 10000).map GetBlockTemplateRequest.payAddress
      = (List.range 10000).map fun i =>
        if (k + i) % 2 ^ 64 % 10000 ≤ percent.toNat then address else minerAddress := by
  have hpays : ∀ i, (((connect minerAddress mineWhenNotSynced userAgentSuffix).addDevfund address
      percent).atCtr (BitVec.ofNat 64 i)).payAddress
        = if i % 2 ^ 64 % 10000 ≤ percent.toNat then address else minerAddress := by
    intro i
    exact payAddress_addDevfund ((connect minerAddress mineWhenNotSynced userAgentSuffix).atCtr
      (BitVec.ofNat 64 i)) address percent
  rw [calls_run h]
  apply List.ext_getElem
  · simp
    omega
  · intro i h₁ h₂
    simp only [List.getElem_map, List.getElem_take, List.getElem_drop, List.getElem_range]
    rw [← hpays (k + i)]
    exact congrArg (fun ctr => (atCtr _ ctr).payAddress) (BitVec.zero_add _)

/-- In any 10 000 consecutive calls the devfund and the miner get their shares precisely when
the devfund gets everything, and is not the miner. -/
theorem devfund_share_iff (checks : Bool) (minerAddress : Str) (mineWhenNotSynced : Bool)
    (userAgentSuffix : Option Str) (address : Str) (percent : U16) (n k : ℕ)
    (requests : List GetBlockTemplateRequest) (self' : VelkardHandler)
    (hpercent : percent.toNat ≤ 10000) (hk : k + 10000 ≤ n)
    (h : calls checks n ((connect minerAddress mineWhenNotSynced userAgentSuffix).addDevfund
      address percent) = (.ok requests, self')) :
    (requestsFor address ((requests.drop k).take 10000) = percent.toNat
        ∧ requestsFor minerAddress ((requests.drop k).take 10000) = 10000 - percent.toNat)
      ↔ percent.toNat = 10000 ∧ address ≠ minerAddress := by
  have hwindow := window_requests hk h
  -- the payee of a call is decided by its number alone
  have hcount : ∀ a, requestsFor a ((requests.drop k).take 10000)
      = (List.range 10000).countP fun i =>
        (if (k + i) % 2 ^ 64 % 10000 ≤ percent.toNat then address else minerAddress) = a := by
    intro a
    have hmap := congrArg (List.countP fun x => x = a) hwindow
    rw [List.countP_map, List.countP_map] at hmap
    exact hmap
  rw [hcount, hcount]
  by_cases hsame : address = minerAddress
  -- one address for both gets every request
  case pos =>
    subst hsame
    simp only [ite_self, decide_true, List.countP_true, List.length_range]
    exact iff_of_false (by omega) (by simp)
  have hdev : ((List.range 10000).countP fun i =>
      (if (k + i) % 2 ^ 64 % 10000 ≤ percent.toNat then address else minerAddress) = address)
        = Nat.count (fun i => (k + i) % 2 ^ 64 % 10000 ≤ percent.toNat) 10000 := by
    refine List.countP_congr fun i _ => ?_
    have hother : minerAddress ≠ address := fun h => hsame h.symm
    simp [hother]
  rw [hdev]
  -- `<=` lets one request too many through, and only at 100% is there none to spare
  obtain hlt | hall := Nat.lt_or_ge percent.toNat 10000
  · refine iff_of_false (fun h => devfund_count_ne hlt k h.1) (by omega)
  · refine iff_of_true ⟨?_, ?_⟩ ⟨by omega, hsame⟩
    · have hevery : ∀ i ∈ List.range 10000,
          decide ((k + i) % 2 ^ 64 % 10000 ≤ percent.toNat) = true := by
        intro i _
        have := Nat.mod_lt ((k + i) % 2 ^ 64) (show 0 < 10000 by norm_num)
        rw [decide_eq_true_eq]
        omega
      rw [Nat.count, List.countP_eq_length.mpr hevery, List.length_range]
      omega
    · have hnone : ∀ i ∈ List.range 10000, ¬ decide
          ((if (k + i) % 2 ^ 64 % 10000 ≤ percent.toNat then address else minerAddress)
            = minerAddress) = true := by
        intro i _
        have := Nat.mod_lt ((k + i) % 2 ^ 64) (show 0 < 10000 by norm_num)
        rw [if_pos (by omega), decide_eq_true_eq]
        exact hsame
      rw [List.countP_eq_zero.mpr hnone]
      omega

/-- Without overflow checks every call succeeds. -/
theorem calls_total (n : ℕ) (self : VelkardHandler) :
    ∃ requests self', calls false n self = (.ok requests, self') := by
  induction n generalizing self with
  | zero => exact ⟨[], self, rfl⟩
  | succ n ih =>
    obtain ⟨requests, self', h⟩ := ih { self with blockTemplateCtr := self.blockTemplateCtr + 1 }
    refine ⟨⟨self.payAddress, self.extraData⟩ :: requests, self', ?_⟩
    rw [calls, Method.bind_run, clientGetBlockTemplate, if_neg (by simp)]
    show (calls false n >>= _) _ = _
    rw [Method.bind_run, h]
    rfl

/-- The whole of the work for the devfund. -/
theorem full_share :
    ∃ requests self', calls false 10000 ((connect "miner".toList false none).addDevfund
        "devfund".toList 10000) = (.ok requests, self')
      ∧ requestsFor "devfund".toList ((requests.drop 0).take 10000) = 10000
      ∧ requestsFor "miner".toList ((requests.drop 0).take 10000) = 0 := by
  obtain ⟨requests, self', h⟩ := calls_total 10000
    ((connect "miner".toList false none).addDevfund "devfund".toList 10000)
  exact ⟨requests, self', h, (devfund_share_iff false "miner".toList false none "devfund".toList
    10000 10000 0 requests self' (by decide) (by norm_num) h).mpr (by decide)⟩

/-- At one percent the devfund gets 101 requests of 10 000. -/
theorem one_percent_is_exceeded :
    ¬ ∀ (checks : Bool) (minerAddress : Str) (mineWhenNotSynced : Bool)
      (userAgentSuffix : Option Str) (address : Str) (percent : U16) (n k : ℕ)
      (requests : List GetBlockTemplateRequest) (self' : VelkardHandler),
      percent.toNat ≤ 10000 → k + 10000 ≤ n →
      calls checks n ((connect minerAddress mineWhenNotSynced userAgentSuffix).addDevfund
        address percent) = (.ok requests, self') →
      requestsFor address ((requests.drop k).take 10000) = percent.toNat
        ∧ requestsFor minerAddress ((requests.drop k).take 10000) = 10000 - percent.toNat := by
  intro hshare
  obtain ⟨requests, self', h⟩ := calls_total 10000
    ((connect "miner".toList false none).addDevfund "devfund".toList 100)
  have hexact := (hshare false _ false none _ 100 10000 0 requests self' (by decide) (by norm_num)
    h).1
  have hmap := congrArg (List.countP fun x => x = "devfund".toList)
    (window_requests (k := 0) (by norm_num) h)
  rw [List.countP_map, List.countP_map] at hmap
  have hcount : ((List.range 10000).countP fun i => (if (0 + i) % 2 ^ 64 % 10000 ≤ 100
      then "devfund".toList else "miner".toList) = "devfund".toList)
        = Nat.count (fun i => (0 + i) % 2 ^ 64 % 10000 ≤ 100) 10000 := by
    refine List.countP_congr fun i _ => ?_
    have hother : "miner".toList ≠ "devfund".toList := by decide
    rw [decide_eq_true_eq, decide_eq_true_eq]
    split
    case isTrue hle => exact iff_of_true rfl hle
    case isFalse hgt => exact iff_of_false hother hgt
  have hdev : Nat.count (fun i => (0 + i) % 2 ^ 64 % 10000 ≤ 100) 10000 = 100 :=
    hcount.symm.trans (hmap.symm.trans hexact)
  rw [devfund_count (by norm_num) (by norm_num)] at hdev
  exact absurd hdev (by norm_num)

end VelkardHandler
