/-
A connection to a pool (`src/stratum.rs`).

The threads of the miner hand their shares to a channel; `listen` takes them out,
numbers the requests and hands lines to a second channel; a task of its own writes
these to the socket, byte by byte.  Both channels hold 64 entries, a sender waits
for room, and any of the parties may be ahead of the others or break off.

* `machine` — one step of one of the parties at a time;
* `Accounts`, `accounts_run` — where every request is, at any time;
* `wire_carries_submissions` — what the pool reads.
-/
import VelkarMiner.Framing
import VelkarMiner.Runs
import VelkarMiner.StratumDifficulty
import VelkarMiner.TargetText

open Bytes Rust

namespace Connection

/-! ### Requests -/

def CARGO_PKG_VERSION : Str := "0.2.6".toList

/-- What a connection is opened with. -/
structure Config where
  serde : SerdeJson
  checks : Bool
  workerName : Str
  userAgentSuffix : Option Str

namespace Config

variable (cfg : Config)

def userAgent : Str :=
  match cfg.userAgentSuffix with
  | some suffix => CARGO_PKG_VERSION ++ '/' :: suffix
  | none => CARGO_PKG_VERSION

def request (method : Str) (params : List Str) (id : U64) : Value :=
  .object [("id".toList, .number (.posInt id)), ("method".toList, .string method),
    ("params".toList, .array (params.map .string))]

def subscribe : U64 → Value := request "mining.subscribe".toList [cfg.userAgent]

def authorize : U64 → Value := request "mining.authorize".toList [cfg.workerName, "x".toList]

/-- A share is a job and a nonce, both as text. -/
def submit (share : Str × Str) : U64 → Value :=
  request "mining.submit".toList [cfg.workerName, share.1, share.2]

/-- The requests of a connection that has been handed some shares. -/
def requests (shares : List (Str × Str)) : List (U64 → Value) :=
  cfg.subscribe :: cfg.authorize :: shares.map cfg.submit

/-- Their lines: the ids count from one on. -/
def lines (shares : List (Str × Str)) : List Str :=
  ((cfg.requests shares).zipIdx 1).map fun r => cfg.serde.display (r.1 (BitVec.ofNat 64 r.2))

end Config

/-! ### The parties -/

/-- The listener: `connect`, then the loop of `listen`. -/
inductive Pc where
  | subscribe
  | subscribing (line : Str)
  | authorize
  | authorizing (line : Str)
  | select
  | submitting (line : Str)
  | check
  | ended
  | failed
deriving DecidableEq

/-- The task that writes to the socket. -/
inductive Writer where
  | idle
  | line (rest : List Byte)
  | newline
  | finished
  | failed
deriving DecidableEq

structure State where
  requestId : U64
  session : Session
  pc : Pc
  submitQueue : List (Str × Str)
  submitOpen : Bool
  writerQueue : List Str
  writer : Writer
  wire : List Byte

inductive Event where
  | request
  | send
  | sendFailed
  | command
  | line (text : Str)
  | eof
  | check (isShutdown : Bool)
  | drop
  | submit (share : Str × Str)
  | take
  | write (n : ℕ)
  | endLine
  | newline
  | writeFailed
  | finish

/-- The line that the listener waits to hand over, and where it goes on from. -/
def Pc.sending : Pc → Option (Str × Pc)
  | subscribing line => some (line, authorize)
  | authorizing line => some (line, select)
  | submitting line => some (line, check)
  | _ => none

/-- Where an error of the send leaves the listener. -/
def Pc.broken : Pc → Pc
  | submitting _ => ended
  | _ => failed

/-- `connect` has returned the handler, and with it the sender of the shares. -/
def Pc.Connected : Pc → Prop
  | select | submitting _ | check | ended => True
  | _ => False

/-- The listener has returned. -/
def Pc.Over (pc : Pc) : Prop := pc = ended ∨ pc = failed

/-- The receiver of the lines is gone. -/
def Writer.Gone (w : Writer) : Prop := w = finished ∨ w = failed

/-- `\n`. -/
def NEWLINE : Byte := 10

variable (cfg : Config)

/-- A request built by the listener: `next_id` counts it. -/
def State.build (s : State) (request : U64 → Value) (pc : Str → Pc) : State :=
  { s with requestId := s.requestId + 1, pc := pc (cfg.serde.display (request s.requestId)) }

inductive Step : State → Event → State → Prop
  -- `connect`
  | subscribe (s : State) (hpc : s.pc = .subscribe) :
      Step s .request (s.build cfg cfg.subscribe .subscribing)
  | authorize (s : State) (hpc : s.pc = .authorize) :
      Step s .request (s.build cfg cfg.authorize .authorizing)
  -- `self.writer.send(_).await`
  | send (s : State) (line : Str) (pc : Pc) (hpc : s.pc.sending = some (line, pc))
      (hroom : s.writerQueue.length < 64) (hwriter : ¬ s.writer.Gone) :
      Step s .send { s with writerQueue := s.writerQueue ++ [line], pc := pc }
  | sendFailed (s : State) (line : Str) (pc : Pc) (hpc : s.pc.sending = some (line, pc))
      (hwriter : s.writer.Gone) :
      Step s .sendFailed { s with pc := s.pc.broken }
  -- the branches of `select!`
  | command (s : State) (share : Str × Str) (rest : List (Str × Str)) (hpc : s.pc = .select)
      (hqueue : s.submitQueue = share :: rest) :
      Step s .command ({ s with submitQueue := rest }.build cfg (cfg.submit share) .submitting)
  | line (s : State) (text : Str) (hpc : s.pc = .select) :
      Step s (.line text)
        (let r := handleLine cfg.serde cfg.checks text s.session
        { s with session := r.2, pc := if r.1 = .ok () then .check else .ended })
  | eof (s : State) (hpc : s.pc = .select) : Step s .eof { s with pc := .ended }
  | check (s : State) (isShutdown : Bool) (hpc : s.pc = .check) :
      Step s (.check isShutdown) { s with pc := if isShutdown then .ended else .select }
  -- the receiver of the shares goes with the caller of `listen`, and what it holds with it
  | drop (s : State) (hpc : s.pc = .ended) :
      Step s .drop { s with submitOpen := false, submitQueue := [] }
  -- a thread of the miner
  | submit (s : State) (share : Str × Str) (hpc : s.pc.Connected) (hopen : s.submitOpen = true)
      (hroom : s.submitQueue.length < 64) :
      Step s (.submit share) { s with submitQueue := s.submitQueue ++ [share] }
  -- the writer
  | take (s : State) (line : Str) (rest : List Str) (hwriter : s.writer = .idle)
      (hqueue : s.writerQueue = line :: rest) :
      Step s .take { s with writerQueue := rest, writer := .line (asBytes line) }
  | write (s : State) (rest : List Byte) (n : ℕ) (hwriter : s.writer = .line rest) (hpos : 0 < n)
      (hn : n ≤ rest.length) :
      Step s (.write n) { s with wire := s.wire ++ rest.take n, writer := .line (rest.drop n) }
  | endLine (s : State) (hwriter : s.writer = .line []) :
      Step s .endLine { s with writer := .newline }
  | newline (s : State) (hwriter : s.writer = .newline) :
      Step s .newline { s with wire := s.wire ++ [NEWLINE], writer := .idle }
  | writeFailed (s : State) (hwriter : s.writer = .newline ∨ ∃ rest, s.writer = .line rest) :
      Step s .writeFailed { s with writer := .failed }
  | finish (s : State) (hwriter : s.writer = .idle) (hqueue : s.writerQueue = [])
      (hpc : s.pc.Over) :
      Step s .finish { s with writer := .finished }

/-- A fresh connection. -/
def initial : State where
  requestId := 1
  session := ⟨.connect, []⟩
  pc := .subscribe
  submitQueue := []
  submitOpen := true
  writerQueue := []
  writer := .idle
  wire := []

def machine : Machine State Event := ⟨fun s => s = initial, Step cfg⟩

def Event.share : Event → Option (Str × Str)
  | submit share => some share
  | _ => none

/-- The shares that the threads have handed over, in the order of the channel. -/
def shares (tr : List (State × Event)) : List (Str × Str) := tr.filterMap fun x => x.2.share

/-! ### What a step adds to the stream -/

/-- The requests that have been built are counted. -/
def Event.builds : Event → Bool
  | request | command => true
  | _ => false

def Writer.rest : Writer → List Byte
  | line rest => rest ++ [NEWLINE]
  | newline => [NEWLINE]
  | _ => []

/-- The line that the listener has not handed over yet. -/
def State.inHand (s : State) : List Str := (s.pc.sending.map Prod.fst).toList

/-- What has been written and what is about to be. -/
def State.stream (s : State) : List Byte :=
  s.wire ++ s.writer.rest ++ Framing.frames NEWLINE ((s.writerQueue ++ s.inHand).map asBytes)

variable {cfg : Config} {s t : State} {e : Event}

/-- A step keeps the stream, up to a line that has been built. -/
theorem stream_step (h : Step cfg s e t) (hwriter : t.writer ≠ .failed)
    (hfinished : s.writer = .finished → s.pc.Over) :
    t.stream = s.stream
      ++ if e.builds then Framing.frames NEWLINE (t.inHand.map asBytes) else [] := by
  cases h with
  | subscribe hpc | authorize hpc =>
    simp [State.stream, State.inHand, State.build, Pc.sending, Event.builds, hpc]
  | command share rest hpc hqueue =>
    simp [State.stream, State.inHand, State.build, Pc.sending, Event.builds, hpc]
  | send line pc hpc hroom =>
    -- after the line has been handed over there is none
    have hnext : pc.sending = none := by
      cases hs : s.pc <;> rw [hs] at hpc <;> cases hpc <;> rfl
    simp [State.stream, State.inHand, Event.builds, hpc, hnext]
  | sendFailed line pc hpc hgone =>
    rcases hgone with hend | hfail
    · rcases hfinished hend with hover | hover <;> rw [hover] at hpc <;> cases hpc
    · exact absurd hfail hwriter
  | line text hpc =>
    simp only [State.stream, State.inHand, hpc]
    split <;> simp [Pc.sending, Event.builds]
  | eof hpc => simp [State.stream, State.inHand, Pc.sending, Event.builds, hpc]
  | check isShutdown hpc =>
    cases isShutdown <;> simp [State.stream, State.inHand, Pc.sending, Event.builds, hpc]
  | drop hpc => simp [State.stream, State.inHand, Event.builds]
  | submit share hpc hopen hroom => simp [State.stream, State.inHand, Event.builds]
  | take line rest hidle hqueue =>
    simp [State.stream, State.inHand, Writer.rest, Event.builds, hidle, hqueue]
  | write rest n hline hpos hn =>
    have hsplit :
        s.wire ++ rest.take n ++ (rest.drop n ++ [NEWLINE]) = s.wire ++ (rest ++ [NEWLINE]) := by
      rw [List.append_assoc, ← List.append_assoc (rest.take n), List.take_append_drop]
    simp only [State.stream, State.inHand, Writer.rest, Event.builds, hline, hsplit,
      Bool.false_eq_true, if_false, List.append_nil]
  | endLine hline => simp [State.stream, State.inHand, Writer.rest, Event.builds, hline]
  | newline hline => simp [State.stream, State.inHand, Writer.rest, Event.builds, hline]
  | writeFailed => exact absurd rfl hwriter
  | finish hidle hqueue hpc => simp [State.stream, State.inHand, Writer.rest, Event.builds, hidle]

/-- A writer that has failed writes no more. -/
theorem wire_of_failed (h : Step cfg s e t) (hwriter : t.writer = .failed) : t.wire = s.wire := by
  cases h with
  | write | newline => cases hwriter
  | _ => rfl

/-- What is written comes from the stream. -/
theorem wire_prefix_stream (s : State) : s.wire <+: s.stream := by
  rw [State.stream, List.append_assoc]
  exact List.prefix_append _ _

/-! ### Where the requests are -/

/-- The number of requests built. -/
def built (tr : List (State × Event)) : ℕ := tr.countP fun x => x.2.builds

@[simp] theorem built_concat (tr : List (State × Event)) (x : State × Event) :
    built (tr ++ [x]) = built tr + if x.2.builds then 1 else 0 := by
  simp [built, List.countP_append, List.countP_singleton]

/-- Their lines. -/
def builtLines (cfg : Config) (tr : List (State × Event)) : List Str :=
  (cfg.lines (shares tr)).take (built tr)

theorem length_lines (xs : List (Str × Str)) : (cfg.lines xs).length = xs.length + 2 := by
  simp [Config.lines, Config.requests]

theorem getElem?_lines (xs : List (Str × Str)) (k : ℕ) : (cfg.lines xs)[k]?
    = ((cfg.requests xs)[k]?).map fun r => cfg.serde.display (r (BitVec.ofNat 64 (k + 1))) := by
  rw [Config.lines, List.getElem?_map, List.getElem?_zipIdx, Option.map_map, Nat.add_comm]
  rfl

/-- Further shares are numbered behind the others. -/
theorem lines_prefix (xs ys : List (Str × Str)) : cfg.lines xs <+: cfg.lines (xs ++ ys) := by
  rw [Config.lines, Config.lines, Config.requests, Config.requests, List.map_append,
    ← List.cons_append, ← List.cons_append, List.zipIdx_append, List.map_append]
  exact List.prefix_append _ _

/-- How many requests have been built when the listener is there. -/
def Pc.Phase (n : ℕ) : Pc → Prop
  | subscribe => n = 0
  | subscribing _ | authorize => n = 1
  | authorizing _ => n = 2
  | select | submitting _ | check | ended => 2 ≤ n
  | failed => n ≤ 2

/-- Where every request is; what is in the channel when its receiver goes is lost. -/
structure Accounts (cfg : Config) (tr : List (State × Event)) (s : State) : Prop where
  requestId_eq : s.requestId = BitVec.ofNat 64 (built tr + 1)
  phase : s.pc.Phase (built tr)
  ended : s.submitOpen = false → s.pc = .ended
  queue_eq : s.submitOpen = true → s.submitQueue = (shares tr).drop (built tr - 2)
  built_le : built tr ≤ (shares tr).length + 2
  finished : s.writer = .finished → s.pc.Over
  stream_eq : s.writer ≠ .failed →
    s.stream = Framing.frames NEWLINE ((builtLines cfg tr).map asBytes)
  wire_prefix : s.wire <+: Framing.frames NEWLINE ((builtLines cfg tr).map asBytes)

@[simp] theorem shares_concat (tr : List (State × Event)) (x : State × Event) :
    shares (tr ++ [x]) = shares tr ++ x.2.share.toList := by
  cases hx : x.2.share <;> simp [shares, hx]

/-- Until the listener has ended the receiver stands. -/
theorem Accounts.isOpen {tr : List (State × Event)} (ha : Accounts cfg tr s) (hpc : s.pc ≠ .ended) :
    s.submitOpen = true :=
  (Bool.eq_false_or_eq_true s.submitOpen).resolve_right fun hclosed => hpc (ha.ended hclosed)

/-- The share that the listener takes is the first that it has not built yet. -/
theorem Accounts.drop_of_select {tr : List (State × Event)} (ha : Accounts cfg tr s)
    {share : Str × Str} {rest : List (Str × Str)} (hpc : s.pc = .select)
    (hqueue : s.submitQueue = share :: rest) :
    2 ≤ built tr ∧ (shares tr).drop (built tr - 2) = share :: rest := by
  have hphase := ha.phase
  rw [hpc] at hphase
  refine ⟨hphase, ?_⟩
  rw [← ha.queue_eq (ha.isOpen (by simp [hpc])), hqueue]

/-- Each request is the next of its connection. -/
theorem builtLines_step {tr : List (State × Event)} (h : Step cfg s e t) (ha : Accounts cfg tr s) :
    builtLines cfg (tr ++ [(s, e)]) = builtLines cfg tr ++ if e.builds then t.inHand else [] := by
  have hphase := ha.phase
  cases h with
  | subscribe hpc | authorize hpc =>
    rw [hpc] at hphase
    have hcount : built tr = _ := hphase
    simp only [builtLines, shares_concat, built_concat, Event.share, Event.builds, if_true,
      Option.toList_none, List.append_nil, List.take_add_one, getElem?_lines, Config.requests,
      hcount, State.inHand, State.build, Pc.sending, ha.requestId_eq]
    rfl
  | command share rest hpc hqueue =>
    obtain ⟨htwo, hdrop⟩ := ha.drop_of_select hpc hqueue
    have hshare : (shares tr)[built tr - 2]? = some share := by
      rw [← List.head?_drop, hdrop, List.head?_cons]
    have hrequest : (cfg.requests (shares tr))[built tr]? = some (cfg.submit share) := by
      obtain ⟨k, hk⟩ := Nat.exists_eq_add_of_le' htwo
      rw [hk, Nat.add_sub_cancel] at hshare
      rw [hk, Config.requests, List.getElem?_cons_succ, List.getElem?_cons_succ, List.getElem?_map,
        hshare, Option.map_some]
    simp only [builtLines, shares_concat, built_concat, Event.share, Event.builds, if_true,
      Option.toList_none, List.append_nil, List.take_add_one, getElem?_lines, hrequest,
      State.inHand, State.build, Pc.sending, ha.requestId_eq]
    rfl
  | submit share hpc hopen hroom =>
    obtain ⟨more, hmore⟩ : cfg.lines (shares tr) <+: cfg.lines (shares tr ++ [share]) :=
      lines_prefix _ _
    simp only [builtLines, shares_concat, built_concat, Event.share, Event.builds,
      Bool.false_eq_true, if_false, Option.toList_some, List.append_nil, Nat.add_zero]
    rw [← hmore, List.take_append_of_le_length (by rw [length_lines]; exact ha.built_le)]
  | _ => simp [builtLines, Event.share, Event.builds]

theorem accounts_initial : Accounts cfg [] initial where
  requestId_eq := rfl
  phase := rfl
  ended h := by cases h
  queue_eq _ := rfl
  built_le := Nat.zero_le 2
  finished h := by cases h
  stream_eq _ := rfl
  wire_prefix := List.nil_prefix

theorem failed_step (h : Step cfg s e t) (hwriter : s.writer = .failed) : t.writer = .failed := by
  cases h with
  | take _ _ h | write _ _ h | endLine h | newline h | finish h => rw [hwriter] at h; cases h
  | writeFailed => rfl
  | _ => exact hwriter

theorem finished_step (h : Step cfg s e t) (hs : s.writer = .finished → s.pc.Over)
    (hwriter : t.writer = .finished) : t.pc.Over := by
  cases h with
  | take | write | endLine | newline | writeFailed => cases hwriter
  | finish _ _ hpc => exact hpc
  | drop | submit => exact hs hwriter
  | subscribe hpc | authorize hpc | command _ _ hpc | line _ hpc | eof hpc | check _ hpc =>
    rcases hs hwriter with hover | hover <;> rw [hover] at hpc <;> cases hpc
  | send _ _ hpc | sendFailed _ _ hpc =>
    rcases hs hwriter with hover | hover <;> rw [hover] at hpc <;> cases hpc

theorem phase_step {n : ℕ} (h : Step cfg s e t) (hs : s.pc.Phase n) :
    t.pc.Phase (n + if e.builds then 1 else 0) := by
  cases h with
  | subscribe hpc | authorize hpc => rw [hpc] at hs; exact congrArg (· + 1) hs
  | command _ _ hpc => rw [hpc] at hs; exact Nat.le_succ_of_le hs
  | send line pc hpc =>
    cases hfrom : s.pc with
    | subscribing | submitting => rw [hfrom] at hpc hs; cases hpc; exact hs
    | authorizing => rw [hfrom] at hpc hs; cases hpc; exact Nat.le_of_eq hs.symm
    | _ => rw [hfrom] at hpc; cases hpc
  | sendFailed line pc hpc =>
    cases hfrom : s.pc with
    | subscribing | authorizing =>
      rw [hfrom] at hs
      show n ≤ 2
      have hn : n = _ := hs
      omega
    | submitting => rw [hfrom] at hs; exact hs
    | _ => rw [hfrom] at hpc; cases hpc
  | line text hpc =>
    rw [hpc] at hs
    show (if _ then Pc.check else Pc.ended).Phase n
    split <;> exact hs
  | eof hpc => rw [hpc] at hs; exact hs
  | check isShutdown hpc => rw [hpc] at hs; cases isShutdown <;> exact hs
  | _ => exact hs

theorem ended_step (h : Step cfg s e t) (hs : s.submitOpen = false → s.pc = .ended)
    (hclosed : t.submitOpen = false) : t.pc = .ended := by
  cases h with
  | drop hpc => exact hpc
  | eof => rfl
  | subscribe hpc | authorize hpc | command _ _ hpc | line _ hpc | check _ hpc | send _ _ hpc
  | sendFailed _ _ hpc =>
    rw [hs hclosed] at hpc
    cases hpc
  | submit | take | write | endLine | newline | writeFailed | finish => exact hs hclosed

/-- The queue of the shares, while it stands. -/
theorem queue_step {tr : List (State × Event)} (ha : Accounts cfg tr s) (h : Step cfg s e t)
    (hopen : t.submitOpen = true) :
    t.submitQueue = (shares (tr ++ [(s, e)])).drop (built (tr ++ [(s, e)]) - 2) := by
  have hphase := ha.phase
  have hle := ha.built_le
  rw [shares_concat, built_concat]
  cases h with
  | subscribe hpc | authorize hpc =>
    rw [hpc] at hphase
    have hcount : built tr = _ := hphase
    have hqueue := ha.queue_eq hopen
    simp only [Event.share, Event.builds, if_true, Option.toList_none, List.append_nil, hcount]
    rw [hcount] at hqueue
    exact hqueue
  | command share rest hpc hqueue =>
    obtain ⟨htwo, hdrop⟩ := ha.drop_of_select hpc hqueue
    simp only [Event.share, Event.builds, if_true, Option.toList_none, List.append_nil]
    rw [show built tr + 1 - 2 = built tr - 2 + 1 by omega, ← List.tail_drop, hdrop]
    rfl
  | drop => cases hopen
  | submit share hpc _ hroom =>
    simp only [Event.share, Event.builds, Bool.false_eq_true, if_false, Option.toList_some,
      Nat.add_zero]
    rw [List.drop_append_of_le_length (by omega), ha.queue_eq hopen]
  | _ => simpa [Event.share, Event.builds] using ha.queue_eq hopen

/-- No more is built than has been handed over. -/
theorem built_step {tr : List (State × Event)} (ha : Accounts cfg tr s) (h : Step cfg s e t) :
    built (tr ++ [(s, e)]) ≤ (shares (tr ++ [(s, e)])).length + 2 := by
  have hphase := ha.phase
  have hle := ha.built_le
  rw [shares_concat, built_concat]
  cases h with
  | subscribe hpc | authorize hpc =>
    rw [hpc] at hphase
    have hcount : built tr = _ := hphase
    simp only [Event.share, Event.builds, if_true, Option.toList_none, List.append_nil, hcount]
    omega
  | command share rest hpc hqueue =>
    obtain ⟨htwo, hdrop⟩ := ha.drop_of_select hpc hqueue
    have hlength := congrArg List.length hdrop
    rw [List.length_cons, List.length_drop] at hlength
    simp only [Event.share, Event.builds, if_true, Option.toList_none, List.append_nil]
    omega
  | submit share hpc hopen hroom =>
    simp only [Event.share, Event.builds, Bool.false_eq_true, if_false, Option.toList_some,
      Nat.add_zero, List.length_append, List.length_singleton]
    omega
  | _ => simpa [Event.share, Event.builds] using hle

theorem requestId_step {n : ℕ} (h : Step cfg s e t) (hs : s.requestId = BitVec.ofNat 64 (n + 1)) :
    t.requestId = BitVec.ofNat 64 ((n + if e.builds then 1 else 0) + 1) := by
  cases h with
  | subscribe | authorize | command =>
    show s.requestId + 1 = _
    rw [hs, Event.builds, if_pos rfl, BitVec.ofNat_add (n + 1) 1]
    rfl
  | _ => exact hs

theorem accounts_step {tr : List (State × Event)} (ha : Accounts cfg tr s) (h : Step cfg s e t) :
    Accounts cfg (tr ++ [(s, e)]) t := by
  have hlines := builtLines_step h ha
  have hstream : t.writer ≠ .failed →
      t.stream = Framing.frames NEWLINE ((builtLines cfg (tr ++ [(s, e)])).map asBytes) := by
    intro hwriter
    rw [stream_step h hwriter ha.finished, ha.stream_eq fun hs => hwriter (failed_step h hs),
      hlines, List.map_append, Framing.frames_append]
    split <;> rfl
  refine ⟨?_, ?_, ended_step h ha.ended, queue_step ha h, built_step ha h,
    finished_step h ha.finished, hstream, ?_⟩
  · rw [built_concat]
    exact requestId_step h ha.requestId_eq
  · rw [built_concat]
    exact phase_step h ha.phase
  · by_cases hwriter : t.writer = .failed
    · rw [wire_of_failed h hwriter, hlines, List.map_append, Framing.frames_append]
      exact ha.wire_prefix.trans (List.prefix_append _ _)
    · rw [← hstream hwriter]
      exact wire_prefix_stream t

theorem accounts_run {tr : List (State × Event)} (h : (machine cfg).Run tr t) :
    Accounts cfg tr t := by
  refine h.induction (P := Accounts cfg) (fun s₀ hs₀ => ?_) fun _ _ _ _ _ ha hstep =>
    accounts_step ha hstep
  obtain rfl : s₀ = initial := hs₀
  exact accounts_initial

/-! ### What the pool reads -/

/-- In UTF-8 only a character of ASCII has bytes below 128. -/
theorem toNat_of_mem_utf8 {c : Char} {b : UInt8} (hb : b ∈ String.utf8EncodeChar c)
    (hlt : b.toNat < 128) : b.toNat = c.toNat := by
  have hval : c.val.toNat = c.toNat := rfl
  have hbig : ∀ n, 128 ≤ n → n < 256 → b ≠ UInt8.ofNat n := by
    rintro n hn hn' rfl
    rw [UInt8.toNat_ofNat', Nat.mod_eq_of_lt hn'] at hlt
    omega
  simp only [String.utf8EncodeChar, hval] at hb
  split at hb
  case isTrue hc =>
    obtain rfl := List.mem_singleton.mp hb
    rw [UInt8.toNat_ofNat', Nat.mod_eq_of_lt (by omega)]
  case isFalse =>
    -- the first byte of a longer code starts with ones, the others with one and zero
    exfalso
    split at hb
    · rcases List.mem_cons.mp hb with h | hb
      · exact hbig _ (by omega) (by omega) h
      · exact hbig _ (by omega) (by omega) (List.mem_singleton.mp hb)
    · split at hb
      · rcases List.mem_cons.mp hb with h | hb
        · exact hbig _ (by omega) (by omega) h
        · rcases List.mem_cons.mp hb with h | hb
          · exact hbig _ (by omega) (by omega) h
          · exact hbig _ (by omega) (by omega) (List.mem_singleton.mp hb)
      · rcases List.mem_cons.mp hb with h | hb
        · exact hbig _ (by omega) (by omega) h
        · rcases List.mem_cons.mp hb with h | hb
          · exact hbig _ (by omega) (by omega) h
          · rcases List.mem_cons.mp hb with h | hb
            · exact hbig _ (by omega) (by omega) h
            · exact hbig _ (by omega) (by omega) (List.mem_singleton.mp hb)

theorem newline_mem_asBytes {text : Str} (h : NEWLINE ∈ asBytes text) : '\n' ∈ text := by
  obtain ⟨c, hc, hbyte⟩ := List.mem_flatMap.mp h
  obtain ⟨b, hb, hnewline⟩ := List.mem_map.mp hbyte
  have hten : b.toNat = 10 := congrArg BitVec.toNat hnewline
  have hchar : c.toNat = 10 := (toNat_of_mem_utf8 hb (by omega)).symm.trans hten
  have hc' : c = '\n' := Char.ext (UInt32.toNat_inj.mp hchar)
  exact hc' ▸ hc

/-- Nothing has been built beyond what has been handed over, and in a connection that stands the
rest waits in the queue. -/
theorem builtLines_append {tr : List (State × Event)} (ha : Accounts cfg tr s)
    (hpc : s.pc.Connected) (hopen : s.submitOpen = true) :
    ∃ waiting, waiting.length = s.submitQueue.length
      ∧ cfg.lines (shares tr) = builtLines cfg tr ++ waiting := by
  have htwo : 2 ≤ built tr := by
    have hphase := ha.phase
    cases hfrom : s.pc <;> rw [hfrom] at hphase hpc
    case select | submitting | check | ended => exact hphase
    all_goals exact hpc.elim
  refine ⟨(cfg.lines (shares tr)).drop (built tr), ?_, (List.take_append_drop _ _).symm⟩
  rw [List.length_drop, length_lines, ha.queue_eq hopen, List.length_drop]
  omega

/-- The lines that the pool has received in full are the first of the connection. -/
theorem cut_wire_prefix (hline : ∀ value, '\n' ∉ cfg.serde.display value)
    {tr : List (State × Event)} (ha : Accounts cfg tr s) :
    (Framing.cut NEWLINE s.wire).1 <+: (cfg.lines (shares tr)).map asBytes := by
  have hprefix : s.wire <+: Framing.frames NEWLINE ((cfg.lines (shares tr)).map asBytes) :=
    ha.wire_prefix.trans
      (Framing.frames_prefix NEWLINE ((List.take_prefix (built tr) _).map asBytes))
  refine (Framing.cut_of_prefix NEWLINE ?_ hprefix).1
  intro bytes hbytes hnewline
  obtain ⟨line, hmem, rfl⟩ := List.mem_map.mp hbytes
  obtain ⟨request, -, rfl⟩ := List.mem_map.mp hmem
  exact hline _ (newline_mem_asBytes hnewline)

/-- At any time the lines that the pool has received in full are the first requests of the
connection, numbered from one on, the shares in the order in which the threads have handed them
over; and as long as the receiver of the shares stands and the socket has not failed, every further
request is on its way, on the wire in part, with the writer, with the listener or in one of the two
channels. -/
theorem wire_carries_submissions (cfg : Config) (hline : ∀ value, '\n' ∉ cfg.serde.display value)
    {tr : List (State × Event)} {s : State} (h : (machine cfg).Run tr s) :
    (Framing.cut NEWLINE s.wire).1 <+: (cfg.lines (shares tr)).map asBytes
      ∧ (s.writer ≠ .failed → s.pc.Connected → s.submitOpen = true → ∃ waiting : List Str,
        waiting.length = s.submitQueue.length
          ∧ s.wire ++ s.writer.rest
              ++ Framing.frames NEWLINE ((s.writerQueue ++ s.inHand ++ waiting).map asBytes)
            = Framing.frames NEWLINE ((cfg.lines (shares tr)).map asBytes)) := by
  have ha := accounts_run h
  constructor
  · exact cut_wire_prefix hline ha
  · intro hwriter hpc hopen
    obtain ⟨waiting, hlength, happend⟩ := builtLines_append ha hpc hopen
    refine ⟨waiting, hlength, ?_⟩
    have hstream := ha.stream_eq hwriter
    simp only [State.stream, List.map_append, Framing.frames_append] at hstream
    simp only [happend, List.map_append, Framing.frames_append, ← hstream, List.append_assoc]

/-! ### A connection -/

/-- A character of a JSON string. -/
def escape (c : Char) : Str :=
  if c = '"' then ['\\', '"']
  else if c = '\\' then ['\\', '\\']
  else if c = '\n' then ['\\', 'n']
  else if c = '\r' then ['\\', 'r']
  else if c = '\t' then ['\\', 't']
  else if c.toNat = 8 then ['\\', 'b']
  else if c.toNat = 12 then ['\\', 'f']
  else if c.toNat < 32 then "\\u".toList ++ fmtHex 4 c.toNat
  else [c]

def jsonString (s : Str) : Str := '"' :: s.flatMap escape ++ ['"']

/-- The requests of a connection in compact JSON. -/
def sampleDisplay : Value → Str
  | .object [(key₁, .number (.posInt id)), (key₂, .string method), (key₃, .array params)] =>
    '\x7b' :: jsonString key₁ ++ ':' :: fmtDec id.toNat ++ ',' :: jsonString key₂ ++ ':' ::
      jsonString method ++ ',' :: jsonString key₃ ++ ':' :: '[' ::
      [','].intercalate (params.map fun param => jsonString (param.asStr.getD [])) ++ [']', '\x7d']
  | _ => "null".toList

theorem newline_notMem_digits {radix : ℕ} {s : Str} (h : AllDigits radix s) : '\n' ∉ s := by
  intro hmem
  have hdigit := h _ hmem
  simp [toDigit] at hdigit

theorem newline_notMem_escape (c : Char) : '\n' ∉ escape c := by
  have hhex : '\n' ∉ fmtHex 4 c.toNat := newline_notMem_digits (allDigits_fmtHex 4 c.toNat)
  by_cases hc : c = '\n'
  · rw [hc]
    decide
  · unfold escape
    split_ifs <;> simp [hhex, Ne.symm hc]

theorem newline_notMem_jsonString (s : Str) : '\n' ∉ jsonString s := by
  simp [jsonString, List.mem_flatMap, newline_notMem_escape]

theorem newline_notMem_sampleDisplay (value : Value) : '\n' ∉ sampleDisplay value := by
  have hparams : ∀ params : List Value, '\n' ∉ [','].intercalate
      (params.map fun param => jsonString (param.asStr.getD [])) := by
    intro params
    induction params with
    | nil => decide
    | cons param params ih =>
      cases params with
      | nil => simpa using newline_notMem_jsonString _
      | cons next params => simpa using ⟨newline_notMem_jsonString _, ih⟩
  have hid : ∀ id : U64, '\n' ∉ fmtDec id.toNat := fun id =>
    newline_notMem_digits (allDigits_fmtDec id.toNat)
  unfold sampleDisplay
  split
  · simp [newline_notMem_jsonString, hparams, hid]
  · decide

def sampleConfig : Config where
  serde := ⟨fun _ => .error "expected value".toList, sampleDisplay⟩
  checks := false
  workerName := "velkar:miner".toList
  userAgentSuffix := some "rig".toList

def sampleShare : Str × Str := ("7".toList, "00000000000000ff".toList)

/-- Both requests of `connect` and a share are handed over; the first line has been written. -/
theorem sampleRun : ∃ tr s, (machine sampleConfig).Run tr s ∧ shares tr = [sampleShare]
    ∧ s.pc = .check ∧ s.submitOpen = true ∧ s.writer = .idle ∧ s.submitQueue = []
    ∧ s.writerQueue.length = 2
    ∧ s.wire = asBytes (sampleDisplay (sampleConfig.subscribe 1)) ++ [NEWLINE] := by
  have hidle : ¬ Writer.idle.Gone := by rintro (h | h) <;> cases h
  have start : (machine sampleConfig).Steps initial [] initial := .refl
  have subscribed := (start.step (.subscribe _ rfl)).step (.send _ _ _ rfl (by decide) hidle)
  have connected := (subscribed.step (.authorize _ rfl)).step (.send _ _ _ rfl (by decide) hidle)
  have handed := connected.step (.submit _ sampleShare trivial rfl (by decide))
  have queued := (handed.step (.command _ sampleShare [] rfl rfl)).step
    (.send _ _ _ rfl (by decide) hidle)
  have taken := queued.step (.take _ _ _ rfl rfl)
  have written := taken.step (.write _ _ _ rfl (by decide) le_rfl)
  have ended := (written.step (.endLine _ (congrArg Writer.line List.drop_length))).step
    (.newline _ rfl)
  refine ⟨_, _, ⟨initial, rfl, ended⟩, rfl, rfl, rfl, rfl, rfl, rfl, ?_⟩
  exact congrArg (· ++ [NEWLINE]) List.take_length

/-- What the pool has read, and what is still on its way. -/
theorem wire_carries_submissions_sample : ∃ tr s, (machine sampleConfig).Run tr s
    ∧ shares tr = [sampleShare] ∧ (Framing.cut NEWLINE s.wire).1.length = 1
    ∧ (Framing.cut NEWLINE s.wire).1 <+: (sampleConfig.lines (shares tr)).map asBytes
    ∧ ∃ waiting : List Str, waiting = []
      ∧ s.wire ++ s.writer.rest
          ++ Framing.frames NEWLINE ((s.writerQueue ++ s.inHand ++ waiting).map asBytes)
        = Framing.frames NEWLINE ((sampleConfig.lines (shares tr)).map asBytes) := by
  obtain ⟨tr, s, h, hshares, hpc, hopen, hwriter, hqueue, -, hwire⟩ := sampleRun
  have hread := wire_carries_submissions sampleConfig newline_notMem_sampleDisplay h
  obtain ⟨waiting, hlength, hstream⟩ := hread.2 (by simp [hwriter]) (by rw [hpc]; trivial) hopen
  refine ⟨tr, s, h, hshares, ?_, hread.1, waiting, ?_, hstream⟩
  · have hline : NEWLINE ∉ asBytes (sampleDisplay (sampleConfig.subscribe 1)) := fun hmem =>
      newline_notMem_sampleDisplay _ (newline_mem_asBytes hmem)
    rw [hwire, Framing.cut_frame NEWLINE hline]
    rfl
  · rw [hqueue] at hlength
    exact List.eq_nil_of_length_eq_zero hlength

end Connection
