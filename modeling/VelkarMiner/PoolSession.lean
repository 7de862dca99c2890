/-
A miner and its pools (`src/main.rs`, `src/stratum.rs`, `src/miner.rs`).

Each pool has a connection.  A line with a job ends in `process_job` of the miner, a
share goes from the miner into the channel of a connection, and the miner finds that
channel closed once the receiver has gone.  Apart from that the connections and the
miner go on by themselves, in any interleaving.

* `machine` — the connections and the miner, coupled where they meet;
* `handled_run` — the jobs of a connection come from the lines it has received;
* `handed_over`, `delivered` — what crosses, in the run of either side.
-/
import VelkarMiner.Coupled
import VelkarMiner.Connection
import VelkarMiner.StratumHistory
import VelkarMiner.Shares

open Bytes Rust

/-! ### The lines of a connection -/

/-- The pool has sent this job with one of the lines. -/
def Announced (serde : SerdeJson) (checks : Bool) (lines : List Str) (job : StratumJob) : Prop :=
  ∃ n line xs, lines[n]? = some line ∧ Notifies serde line xs
    ∧ Reflects serde checks (lines.take n) xs job

theorem Announced.longer {serde : SerdeJson} {checks : Bool} {lines lines' : List Str}
    {job : StratumJob} (h : Announced serde checks lines job) (hlines : lines <+: lines') :
    Announced serde checks lines' job := by
  obtain ⟨n, line, xs, hn, hnotifies, hreflects⟩ := h
  obtain ⟨more, rfl⟩ := hlines
  have hlt := (List.getElem?_eq_some_iff.mp hn).1
  refine ⟨n, line, xs, ?_, hnotifies, ?_⟩
  · rw [List.getElem?_append_left hlt, hn]
  · rwa [List.take_append_of_le_length (by omega)]

theorem announced_of_mem {serde : SerdeJson} {checks : Bool} {lines : List Str} {session : Session}
    (h : Handled serde checks lines session) {job : StratumJob} (hjob : job ∈ session.jobs) :
    Announced serde checks lines job := by
  obtain ⟨positions, -, -, hjobs⟩ := jobs_of_lines h
  obtain ⟨i, hi⟩ := List.mem_iff_get.mp (List.mem_reverse.mpr hjob)
  have hrel := (List.forall₂_iff_get.mp hjobs).2 i i.isLt (hjobs.length_eq ▸ i.isLt)
  rw [hi] at hrel
  obtain ⟨line, xs, hline, hnotifies, hreflects⟩ := hrel
  exact ⟨_, line, xs, hline, hnotifies, hreflects⟩

namespace Connection

def Event.text : Event → Option Str
  | line text => some text
  | _ => none

theorem Event.eq_line {e : Event} {text : Str} (h : e.text = some text) : e = .line text := by
  cases e with
  | line text' => rw [Option.some.inj h]
  | _ => cases h

theorem Event.eq_submit {e : Event} {share : Str × Str} (h : e.share = some share) :
    e = .submit share := by
  cases e with
  | submit share' => rw [Option.some.inj h]
  | _ => cases h

/-- The lines that the listener has taken from the socket. -/
def received (tr : List (State × Event)) : List Str := tr.filterMap fun x => x.2.text

@[simp] theorem received_concat (tr : List (State × Event)) (x : State × Event) :
    received (tr ++ [x]) = received tr ++ x.2.text.toList := by
  cases hx : x.2.text <;> simp [received, hx]

variable {cfg : Config} {s t : State} {e : Event}

theorem over_step (h : Step cfg s e t) (hover : s.pc.Over) : t.pc.Over := by
  cases h with
  | subscribe hpc | authorize hpc | eof hpc =>
    rcases hover with h | h <;> rw [h] at hpc <;> cases hpc
  | send line pc hpc | sendFailed line pc hpc | command share rest hpc | line text hpc
  | check isShutdown hpc => rcases hover with h | h <;> rw [h] at hpc <;> cases hpc
  | _ => exact hover

/-- Only a line changes the session. -/
theorem session_step (h : Step cfg s e t) (htext : e.text = none) : t.session = s.session := by
  cases h with
  | line text => cases htext
  | _ => rfl

/-- A line is looked at, and ends the connection unless the handler returns `Ok`. -/
theorem line_step {text : Str} (h : Step cfg s (.line text) t) :
    s.pc = .select ∧ t.session = (handleLine cfg.serde cfg.checks text s.session).2
      ∧ ((handleLine cfg.serde cfg.checks text s.session).1 ≠ .ok () → t.pc = .ended) := by
  cases h with
  | line text hpc => exact ⟨hpc, rfl, fun hr => if_neg hr⟩

/-- The jobs are those of the lines so far; a crash ends the connection. -/
def HandledLines (cfg : Config) (tr : List (State × Event)) (s : State) : Prop :=
  ∃ lines session, Handled cfg.serde cfg.checks lines session ∧ lines <+: received tr
    ∧ session.jobs = s.session.jobs
    ∧ (¬ s.pc.Over → lines = received tr ∧ session = s.session)

theorem handled_step {tr : List (State × Event)} (h : Step cfg s e t)
    (hs : HandledLines cfg tr s) : HandledLines cfg (tr ++ [(s, e)]) t := by
  obtain ⟨lines, session, hlines, hprefix, hjobs, hcurrent⟩ := hs
  cases htext : e.text with
  | none =>
    have hsession := session_step h htext
    refine ⟨lines, session, hlines, ?_, ?_, fun hpc => ?_⟩
    · simpa [htext] using hprefix
    · rw [hsession, hjobs]
    · rw [hsession]
      simpa [htext] using hcurrent fun hover => hpc (over_step h hover)
  | some text =>
    obtain rfl := Event.eq_line htext
    obtain ⟨hpc, hsession, hended⟩ := line_step h
    have hstands : ¬ s.pc.Over := by
      rw [hpc]
      rintro (h | h) <;> cases h
    obtain ⟨rfl, rfl⟩ := hcurrent hstands
    by_cases hpanic : (handleLine cfg.serde cfg.checks text s.session).1 = .panic
    case neg =>
      refine ⟨_, _, hlines.concat hpanic, ?_, ?_, fun _ => ?_⟩
      · simp [Event.text]
      · rw [hsession]
      · exact ⟨by simp [Event.text], hsession.symm⟩
    case pos =>
      refine ⟨_, _, hlines, ?_, ?_, fun hstill => absurd (Or.inl ?_) hstill⟩
      · simp
      · rw [hsession, handleLine_of_panic hpanic]
      · exact hended (by rw [hpanic]; simp)

theorem handled_run {tr : List (State × Event)} (h : (machine cfg).Run tr t) :
    HandledLines cfg tr t := by
  refine h.induction (P := HandledLines cfg) (fun s hs => ?_) fun _ _ _ _ _ ih hstep =>
    handled_step hstep ih
  obtain rfl : s = initial := hs
  exact ⟨[], _, .connect, List.nil_prefix, rfl, fun _ => ⟨rfl, rfl⟩⟩

/-- The jobs that a connection has passed on are announced. -/
theorem announced_run {tr : List (State × Event)} (h : (machine cfg).Run tr t) {job : StratumJob}
    (hjob : job ∈ t.session.jobs) : Announced cfg.serde cfg.checks (received tr) job := by
  obtain ⟨lines, session, hlines, hprefix, hjobs, -⟩ := handled_run h
  rw [← hjobs] at hjob
  exact (announced_of_mem hlines hjob).longer hprefix

theorem mem_jobs_of_update {session session' : Session} (h : Update session session')
    {job : StratumJob} (hjob : job ∈ session.jobs) : job ∈ session'.jobs := by
  cases h with
  | nothing | difficulty | extranonce => exact hjob
  | job job' => exact List.mem_cons_of_mem job' hjob

/-- No job is lost from the record. -/
theorem jobs_step (h : Step cfg s e t) {job : StratumJob} (hjob : job ∈ s.session.jobs) :
    job ∈ t.session.jobs := by
  cases htext : e.text with
  | none => rwa [session_step h htext]
  | some text =>
    obtain rfl := Event.eq_line htext
    rw [(line_step h).2.1, handleLine, Method.lift_bind_run]
    cases cfg.serde.fromStr text with
    | error e => exact hjob
    | ok value =>
      exact mem_jobs_of_update (handleValue_effect cfg.serde cfg.checks value s.session).update hjob

end Connection

/-! ### A session -/

namespace PoolSession

/-- What an event of the miner means to the connections. -/
inductive Port (κ : Type) where
  | job (pool : κ) (state : State)
  | share (pool : κ) (jobId nonce : Str)
  | close (pool : κ)
  | own

/-- A miner for some pools. -/
structure Miner (κ τ δ : Type) where
  machine : Machine τ δ
  port : δ → Port κ
  computeRank : Matrix64 → ℕ
  currentStateId : τ → κ → U64

variable {κ τ δ : Type}

abbrev Sides (κ τ : Type) := (κ → Connection.State) × τ

/-- Which events are one: the line that delivers a job, and `process_job`; the share that a worker
submits, and its entry into the channel; the end of the receiver, and the closed channel. -/
inductive Together (miner : Miner κ τ δ) :
    Sides κ τ → Option (κ × Connection.Event) → Option δ → Sides κ τ → Prop
  | connection {s t : Sides κ τ} {pool : κ} {e : Connection.Event} (hshare : e.share = none)
      (hdrop : e ≠ .drop) (hjobs : (t.1 pool).session.jobs = (s.1 pool).session.jobs) :
      Together miner s (some (pool, e)) none t
  | miner {s t : Sides κ τ} {d : δ} (hport : miner.port d = .own) : Together miner s none (some d) t
  | job {s t : Sides κ τ} {pool : κ} {text : Str} {job : StratumJob} {state : State} {d : δ}
      (hport : miner.port d = .job pool state)
      (hjobs : (t.1 pool).session.jobs = job :: (s.1 pool).session.jobs)
      (hstate : state ∈ job.state miner.computeRank (miner.currentStateId s.2 pool)) :
      Together miner s (some (pool, .line text)) (some d) t
  | share {s t : Sides κ τ} {pool : κ} {jobId nonce : Str} {d : δ}
      (hport : miner.port d = .share pool jobId nonce) :
      Together miner s (some (pool, .submit (jobId, nonce))) (some d) t
  | close {s t : Sides κ τ} {pool : κ} {d : δ} (hport : miner.port d = .close pool) :
      Together miner s (some (pool, .drop)) (some d) t

/-- Where the jobs of the miner come from. -/
def Delivered (miner : Miner κ τ δ) (s : Sides κ τ) (pool : κ) (state : State) : Prop :=
  ∃ job ∈ (s.1 pool).session.jobs, ∃ id, state ∈ job.state miner.computeRank id

section Together

variable {miner : Miner κ τ δ} {s t : Sides κ τ}

theorem Together.job_of_port {e : Option (κ × Connection.Event)} {d : δ}
    (h : Together miner s e (some d) t) {pool : κ} {state : State}
    (hport : miner.port d = .job pool state) : Delivered miner t pool state := by
  cases h with
  | job hjob hjobs hstate =>
    rw [hport] at hjob
    cases hjob
    exact ⟨_, by rw [hjobs]; exact List.mem_cons_self, _, hstate⟩
  | miner h | share h | close h =>
    rw [hport] at h
    cases h

theorem Together.share_of_submit {pool : κ} {share : Str × Str} {d : Option δ}
    (h : Together miner s (some (pool, .submit share)) d t) :
    ∃ d', d = some d' ∧ miner.port d' = .share pool share.1 share.2 := by
  cases h with
  | connection hshare => cases hshare
  | share hport => exact ⟨_, rfl, hport⟩

end Together

variable [DecidableEq κ]

/-- The connections to the pools and the miner. -/
def machine (cfg : κ → Connection.Config) (miner : Miner κ τ δ) :
    Machine (Sides κ τ) (Option (κ × Connection.Event) × Option δ) :=
  Machine.coupled (Machine.family fun pool => Connection.machine (cfg pool)) miner.machine
    (Together miner)

/-- A trace of the connections and the miner. -/
abbrev Trace (κ τ δ : Type) := List (Sides κ τ × Option (κ × Connection.Event) × Option δ)

/-- What the connection to a pool has done. -/
def connection (pool : κ) (tr : Trace κ τ δ) : List (Connection.State × Connection.Event) :=
  Machine.part pool (Machine.left tr)

variable {cfg : κ → Connection.Config} {miner : Miner κ τ δ} {tr : Trace κ τ δ} {s t : Sides κ τ}

theorem connection_run (h : (machine cfg miner).Run tr s) (pool : κ) :
    (Connection.machine (cfg pool)).Run (connection pool tr) (s.1 pool) :=
  h.left.part pool

theorem delivered_step {e : Option (κ × Connection.Event) × Option δ}
    (h : (machine cfg miner).step s e t) {pool : κ} {state : State}
    (hs : Delivered miner s pool state) : Delivered miner t pool state := by
  obtain ⟨job, hjob, hstate⟩ := hs
  refine ⟨job, ?_, hstate⟩
  obtain ⟨hmove, -, -⟩ := h
  cases he : e.1 with
  | none =>
    rw [he] at hmove
    rwa [show t.1 = s.1 from hmove]
  | some x =>
    rw [he] at hmove
    obtain ⟨-, hstep⟩ | ⟨-, hsame⟩ := Machine.family_step_cases hmove pool
    · exact Connection.jobs_step hstep hjob
    · rwa [hsame]

/-- What the miner has been given is a job that the connection has passed on. -/
theorem delivered (h : (machine cfg miner).Run tr s) :
    ∀ x ∈ Machine.right tr, ∀ pool state, miner.port x.2 = .job pool state →
      Delivered miner s pool state := by
  refine h.induction (P := fun tr s => ∀ x ∈ Machine.right tr, ∀ pool state,
    miner.port x.2 = .job pool state → Delivered miner s pool state) ?_ ?_
  · intro s _ x hx
    cases hx
  · rintro tr s ⟨e, d⟩ t - ih hstep x hx pool state hport
    rw [Machine.right_concat, List.mem_append] at hx
    rcases hx with hx | hx
    · exact delivered_step hstep (ih x hx pool state hport)
    · cases d with
      | none => cases hx
      | some d =>
        obtain rfl := List.mem_singleton.mp hx
        exact hstep.2.2.job_of_port hport

/-- The share that a step hands over to the connection of a pool. -/
def shareOf (pool : κ) (x : Sides κ τ × Option (κ × Connection.Event) × Option δ) :
    Option (Str × Str) :=
  x.2.1.bind fun e => if e.1 = pool then e.2.share else none

theorem shares_connection (pool : κ) (tr : Trace κ τ δ) :
    Connection.shares (connection pool tr) = tr.filterMap (shareOf pool) := by
  rw [connection, Connection.shares, Machine.part, Machine.left, List.filterMap_filterMap,
    List.filterMap_filterMap]
  refine List.filterMap_congr fun x _ => ?_
  obtain ⟨s, e, d⟩ := x
  cases e with
  | none => rfl
  | some e =>
    show (if e.1 = pool then some (s.1 pool, e.2) else none).bind _ = if e.1 = pool then _ else none
    split <;> rfl

theorem getElem?_filterMap {α β : Type} {f : α → Option β} {xs : List α} {k : ℕ} {b : β}
    (h : (xs.filterMap f)[k]? = some b) :
    ∃ pre x post, xs = pre ++ x :: post ∧ f x = some b ∧ (pre.filterMap f).length = k := by
  induction xs generalizing k with
  | nil => cases h
  | cons a xs ih =>
    cases ha : f a with
    | none =>
      rw [List.filterMap_cons_none ha] at h
      obtain ⟨pre, x, post, rfl, hx, hk⟩ := ih h
      exact ⟨a :: pre, x, post, rfl, hx, by rw [List.filterMap_cons_none ha, hk]⟩
    | some c =>
      rw [List.filterMap_cons_some ha] at h
      cases k with
      | zero =>
        rw [List.getElem?_cons_zero] at h
        exact ⟨[], a, xs, rfl, ha.trans h, rfl⟩
      | succ k =>
        rw [List.getElem?_cons_succ] at h
        obtain ⟨pre, x, post, rfl, hx, hk⟩ := ih h
        refine ⟨a :: pre, x, post, rfl, hx, ?_⟩
        rw [List.filterMap_cons_some ha, List.length_cons, hk]

/-- A share that has been handed over has been submitted in one step of the run. -/
theorem handed_over (h : (machine cfg miner).Run tr s) {pool : κ} {share : Str × Str} {k : ℕ}
    (hshare : (Connection.shares (connection pool tr))[k]? = some share) :
    ∃ pre s₀ d post, tr = pre ++ (s₀, some (pool, .submit share), some d) :: post
      ∧ (Connection.shares (connection pool pre)).length = k
      ∧ miner.port d = .share pool share.1 share.2
      ∧ miner.machine.Run (Machine.right pre) s₀.2 ∧ ∃ m, miner.machine.step s₀.2 d m := by
  rw [shares_connection] at hshare
  obtain ⟨pre, ⟨s₀, e, d⟩, post, rfl, hx, hk⟩ := getElem?_filterMap hshare
  obtain ⟨⟨pool', e⟩, rfl, he⟩ := Option.bind_eq_some_iff.mp hx
  split at he
  case isFalse => cases he
  case isTrue hpool =>
    subst hpool
    obtain rfl := Connection.Event.eq_submit he
    obtain ⟨hpre, u, ⟨-, hmove, htogether⟩, -⟩ := h.split
    obtain ⟨d, rfl, hport⟩ := htogether.share_of_submit
    exact ⟨pre, s₀, d, post, rfl, by rw [shares_connection, hk], hport, hpre.right, u.2, hmove⟩

/-- Of the lines that a pool has received in full, those after the first two are shares, numbered
on, and each has been handed over in a step of its own. -/
theorem share_of_line {pool : κ} (hline : ∀ value, '\n' ∉ (cfg pool).serde.display value)
    (h : (machine cfg miner).Run tr s) {k : ℕ} {bytes : List Byte}
    (hbytes : (Framing.cut Connection.NEWLINE (s.1 pool).wire).1[k + 2]? = some bytes) :
    ∃ share, (Connection.shares (connection pool tr))[k]? = some share
      ∧ bytes = asBytes ((cfg pool).serde.display
          ((cfg pool).submit share (BitVec.ofNat 64 (k + 3)))) := by
  have haccounts := Connection.accounts_run (connection_run h pool)
  obtain ⟨more, hmore⟩ := Connection.cut_wire_prefix hline haccounts
  have hlt := (List.getElem?_eq_some_iff.mp hbytes).1
  rw [← List.getElem?_append_left hlt, hmore, List.getElem?_map, Connection.getElem?_lines,
    Connection.Config.requests, List.getElem?_cons_succ, List.getElem?_cons_succ,
    List.getElem?_map, Option.map_map, Option.map_map] at hbytes
  obtain ⟨share, hshare, rfl⟩ := Option.map_eq_some_iff.mp hbytes
  exact ⟨share, hshare, rfl⟩

end PoolSession
