/-
Every share reaches the socket (`src/stratum.rs`).

Listener and writer wait for each other's channels.  As long as the socket takes
bytes and nothing ends the connection, they cannot keep each other from working:
whatever the order of their steps, they come to rest, and then every request has
been written.

* `work`, `work_step` — each step of theirs leaves less to do;
* `internal_enabled` — as long as something is left, one of them can go on;
* `shares_reach_wire` — what is on the wire at the end.
-/
import VelkarMiner.Connection

open Bytes Rust

namespace Connection

/-- Steps of the listener and the writer that take nothing from outside: no new share, no line of
the pool, no failure and no shutdown. -/
def Event.Internal : Event → Prop
  | request | send | command | take | write _ | endLine | newline => True
  | check isShutdown => isShutdown = false
  | _ => False

/-! ### What is left to do -/

def Pc.work : Pc → ℕ
  | subscribing _ | authorizing _ | submitting _ => 4
  | check => 1
  | _ => 0

def Writer.work : Writer → ℕ
  | line _ => 1
  | _ => 0

variable (cfg : Config)

/-- The bytes of all requests. -/
def wireLength (xs : List (Str × Str)) : ℕ :=
  (Framing.frames NEWLINE ((cfg.lines xs).map asBytes)).length

/-- The bytes that are missing on the wire, and the steps of the parties between them: five for a
request that is not built yet, two for a line in the channel of the writer. -/
def work (tr : List (State × Event)) (s : State) : ℕ :=
  (wireLength cfg (shares tr) - s.wire.length) + 5 * ((shares tr).length + 2 - built tr)
    + s.pc.work + 2 * s.writerQueue.length + s.writer.work

variable {cfg} {tr : List (State × Event)} {s t : State} {e : Event}

theorem share_of_internal (he : e.Internal) : e.share = none := by
  cases e with
  | submit => exact he.elim
  | _ => rfl

theorem wire_le (ha : Accounts cfg tr s) : s.wire.length ≤ wireLength cfg (shares tr) :=
  (ha.wire_prefix.trans
    (Framing.frames_prefix NEWLINE ((List.take_prefix (built tr) _).map asBytes))).length_le

/-- A request that can be built is one of those that are missing. -/
theorem built_lt (ha : Accounts cfg tr s) (h : Step cfg s e t) (hbuilds : e.builds = true) :
    built tr < (shares tr).length + 2 := by
  have hle := built_step ha h
  have hshare : e.share = none := by
    cases e with
    | submit => cases hbuilds
    | _ => rfl
  simp only [shares_concat, built_concat, hbuilds, hshare, if_true, Option.toList_none,
    List.append_nil] at hle
  omega

/-- Each internal step leaves less to do. -/
theorem work_step (ha : Accounts cfg tr s) (h : Step cfg s e t) (he : e.Internal) :
    work cfg (tr ++ [(s, e)]) t < work cfg tr s := by
  have hwire := wire_le (accounts_step ha h)
  have hlt := built_lt ha h
  rw [shares_concat, share_of_internal he, Option.toList_none, List.append_nil] at hwire
  simp only [work, shares_concat, share_of_internal he, Option.toList_none, List.append_nil,
    built_concat]
  cases h with
  | subscribe hpc | authorize hpc =>
    have hn := hlt rfl
    simp only [State.build, Event.builds, Pc.work, hpc, if_true]
    omega
  | command share rest hpc hqueue =>
    have hn := hlt rfl
    simp only [State.build, Event.builds, Pc.work, hpc, if_true]
    omega
  | send line pc hpc hroom hwriter =>
    have hwork : pc.work + 3 ≤ s.pc.work := by
      cases hfrom : s.pc with
      | subscribing | authorizing | submitting =>
        rw [hfrom] at hpc
        cases hpc
        simp only [Pc.work]
        omega
      | _ => rw [hfrom] at hpc; cases hpc
    simp only [Event.builds, List.length_append, List.length_singleton, Bool.false_eq_true,
      if_false]
    omega
  | check isShutdown hpc =>
    obtain rfl : isShutdown = false := he
    simp only [Event.builds, Pc.work, hpc, Bool.false_eq_true, if_false]
    omega
  | take line rest hidle hqueue =>
    simp only [Event.builds, Writer.work, hidle, hqueue, List.length_cons, Bool.false_eq_true,
      if_false]
    omega
  | write rest n hline hpos hn =>
    simp only [List.length_append, List.length_take] at hwire
    simp only [Event.builds, Writer.work, hline, List.length_append, List.length_take,
      Bool.false_eq_true, if_false]
    omega
  | endLine hline =>
    simp only [Event.builds, Writer.work, hline, Bool.false_eq_true, if_false]
    omega
  | newline hline =>
    simp only [List.length_append, List.length_singleton] at hwire
    simp only [Event.builds, Writer.work, hline, List.length_append, List.length_singleton,
      Bool.false_eq_true, if_false]
    omega
  | sendFailed | line | eof | drop | submit | writeFailed | finish => exact he.elim

/-! ### Something can go on -/

/-- Listener and writer run, and the socket has not failed. -/
structure Running (s : State) : Prop where
  writer_ne : s.writer ≠ .failed
  pc : ¬ s.pc.Over

theorem running_step (hs : Running s) (h : Step cfg s e t) (he : e.Internal) : Running t := by
  obtain ⟨hwriter, hpc⟩ := hs
  cases h with
  | subscribe | authorize | command => exact ⟨hwriter, by rintro (h | h) <;> cases h⟩
  | send line pc hfrom =>
    refine ⟨hwriter, ?_⟩
    cases hs : s.pc <;> rw [hs] at hfrom <;> cases hfrom <;> rintro (h | h) <;> cases h
  | check isShutdown =>
    obtain rfl : isShutdown = false := he
    exact ⟨hwriter, by rintro (h | h) <;> cases h⟩
  | take | write | endLine | newline => exact ⟨(fun h => by cases h), hpc⟩
  | sendFailed | line | eof | drop | submit | writeFailed | finish => exact he.elim

/-- The parties are at rest. -/
structure AtRest (s : State) : Prop where
  pc_eq : s.pc = .select
  submitQueue_eq : s.submitQueue = []
  writerQueue_eq : s.writerQueue = []
  writer_eq : s.writer = .idle

/-- As long as the parties are not at rest, one of them can go on. -/
theorem internal_enabled (ha : Accounts cfg tr s) (hs : Running s)
    (hstuck : ∀ e t, e.Internal → ¬ Step cfg s e t) : AtRest s := by
  -- the writer first: without it the listener may wait for room
  have hidle : s.writer = .idle := by
    cases hwriter : s.writer with
    | idle => rfl
    | line rest =>
      cases rest with
      | nil => exact absurd (Step.endLine s hwriter) (hstuck _ _ trivial)
      | cons b rest =>
        exact absurd (Step.write s _ 1 hwriter Nat.one_pos (by simp)) (hstuck _ _ trivial)
    | newline => exact absurd (Step.newline s hwriter) (hstuck _ _ trivial)
    | finished => exact absurd (ha.finished hwriter) hs.pc
    | failed => exact absurd hwriter hs.writer_ne
  have hqueue : s.writerQueue = [] := by
    cases hlines : s.writerQueue with
    | nil => rfl
    | cons line rest => exact absurd (Step.take s line rest hidle hlines) (hstuck _ _ trivial)
  have hroom : s.writerQueue.length < 64 := by
    rw [hqueue]
    decide
  have hgone : ¬ s.writer.Gone := by
    rw [hidle]
    rintro (h | h) <;> cases h
  have hsend : ∀ line pc, s.pc.sending ≠ some (line, pc) := fun line pc hpc =>
    hstuck .send _ trivial (Step.send s line pc hpc hroom hgone)
  have hselect : s.pc = .select := by
    cases hpc : s.pc with
    | select => rfl
    | subscribe => exact absurd (Step.subscribe s hpc) (hstuck _ _ trivial)
    | authorize => exact absurd (Step.authorize s hpc) (hstuck _ _ trivial)
    | subscribing line | authorizing line | submitting line =>
      exact absurd (by rw [hpc]; rfl) (hsend line _)
    | check => exact absurd (Step.check s false hpc) (hstuck _ _ rfl)
    | ended | failed => exact absurd (by simp [Pc.Over, hpc]) hs.pc
  have hshares : s.submitQueue = [] := by
    cases hsubmit : s.submitQueue with
    | nil => rfl
    | cons share rest =>
      exact absurd (Step.command s share rest hselect hsubmit) (hstuck _ _ trivial)
  exact ⟨hselect, hshares, hqueue, hidle⟩

/-- At rest every request has been written. -/
theorem wire_at_rest (ha : Accounts cfg tr s) (hrest : AtRest s) :
    s.wire = Framing.frames NEWLINE ((cfg.lines (shares tr)).map asBytes) := by
  obtain ⟨hpc, hsubmit, hqueue, hidle⟩ := hrest
  obtain ⟨waiting, hlength, happend⟩ :=
    builtLines_append ha (by rw [hpc]; trivial) (ha.isOpen (by simp [hpc]))
  have hnone : waiting = [] := by
    rw [hsubmit] at hlength
    exact List.eq_nil_of_length_eq_zero hlength
  have hstream := ha.stream_eq (by rw [hidle]; exact fun h => by cases h)
  rw [State.stream, State.inHand, hpc, hqueue, hidle] at hstream
  rw [happend, hnone, List.append_nil, ← hstream]
  simp [Writer.rest, Pc.sending]

/-! ### Every schedule -/

/-- Along internal steps the work goes down, the shares stay, and the parties run on. -/
theorem internal_steps {ys : List (State × Event)} (h : (machine cfg).Run tr s)
    (hys : (machine cfg).Steps s ys t) (hs : Running s) (hinternal : ∀ x ∈ ys, x.2.Internal) :
    work cfg (tr ++ ys) t + ys.length ≤ work cfg tr s ∧ shares (tr ++ ys) = shares tr
      ∧ Running t := by
  induction hys with
  | refl => simpa using hs
  | step hys hstep ih =>
    obtain ⟨hwork, hshares, hrunning⟩ := ih fun x hx =>
      hinternal x (List.mem_append_left _ hx)
    have he := hinternal _ (List.mem_append_right _ List.mem_cons_self)
    have hless := work_step (accounts_run (h.append hys)) hstep he
    rw [← List.append_assoc, List.length_append, List.length_singleton]
    refine ⟨by omega, ?_, running_step hrunning hstep he⟩
    rw [shares_concat, share_of_internal he, Option.toList_none, List.append_nil, hshares]

/-- The parties can be run until they are at rest. -/
theorem comes_to_rest (h : (machine cfg).Run tr s) (hs : Running s) :
    ∃ ys t, (machine cfg).Steps s ys t ∧ (∀ x ∈ ys, x.2.Internal)
      ∧ ∀ e u, e.Internal → ¬ Step cfg t e u := by
  induction hn : work cfg tr s using Nat.strong_induction_on generalizing tr s with
  | _ n ih =>
    by_cases hstuck : ∀ e u, e.Internal → ¬ Step cfg s e u
    · exact ⟨[], s, .refl, by simp, hstuck⟩
    · push Not at hstuck
      obtain ⟨e, u, he, hstep⟩ := hstuck
      have hone : (machine cfg).Steps s [(s, e)] u := Machine.Steps.refl.step hstep
      have hless := work_step (accounts_run h) hstep he
      obtain ⟨ys, t, hys, hinternal, hrest⟩ :=
        ih _ (hn ▸ hless) (h.append hone) (running_step hs hstep he) rfl
      refine ⟨[(s, e)] ++ ys, t, hone.append hys, ?_, hrest⟩
      intro x hx
      rcases List.mem_append.mp hx with hx | hx
      · rw [List.mem_singleton.mp hx]
        exact he
      · exact hinternal x hx

/-- As long as no new share is handed over, nothing ends the connection and the socket takes
bytes, listener and writer come to rest after boundedly many steps, however they are scheduled,
and then every share that has been handed over is on the wire. -/
theorem shares_reach_wire (cfg : Config) {tr : List (State × Event)} {s : State}
    (h : (machine cfg).Run tr s) (hwriter : s.writer ≠ .failed) (hpc : ¬ s.pc.Over) :
    (∃ bound, ∀ ys t, (machine cfg).Steps s ys t → (∀ x ∈ ys, x.2.Internal) →
      ys.length ≤ bound
        ∧ ((∀ e u, e.Internal → ¬ Step cfg t e u) →
          t.wire = Framing.frames NEWLINE ((cfg.lines (shares tr)).map asBytes)))
      ∧ ∃ ys t, (machine cfg).Steps s ys t ∧ (∀ x ∈ ys, x.2.Internal)
        ∧ ∀ e u, e.Internal → ¬ Step cfg t e u := by
  refine ⟨⟨work cfg tr s, fun ys t hys hinternal => ?_⟩, comes_to_rest h ⟨hwriter, hpc⟩⟩
  obtain ⟨hwork, hshares, hrunning⟩ := internal_steps h hys ⟨hwriter, hpc⟩ hinternal
  have ha := accounts_run (h.append hys)
  refine ⟨by omega, fun hstuck => ?_⟩
  rw [wire_at_rest ha (internal_enabled ha hrunning hstuck), hshares]

/-- A share of which nothing has been written yet. -/
theorem shares_reach_wire_sample : ∃ tr s, (machine sampleConfig).Run tr s
    ∧ shares tr = [sampleShare] ∧ s.writerQueue.length = 2
    ∧ (∃ bound, ∀ ys t, (machine sampleConfig).Steps s ys t → (∀ x ∈ ys, x.2.Internal) →
      ys.length ≤ bound
        ∧ ((∀ e u, e.Internal → ¬ Step sampleConfig t e u) →
          t.wire = Framing.frames NEWLINE ((sampleConfig.lines (shares tr)).map asBytes)))
    ∧ ∃ ys t, (machine sampleConfig).Steps s ys t ∧ (∀ x ∈ ys, x.2.Internal)
      ∧ ∀ e u, e.Internal → ¬ Step sampleConfig t e u := by
  obtain ⟨tr, s, h, hshares, hpc, -, hwriter, -, hqueue, -⟩ := sampleRun
  obtain ⟨hall, hsome⟩ := shares_reach_wire sampleConfig h (by simp [hwriter])
    (by rw [hpc]; rintro (h | h) <;> cases h)
  exact ⟨tr, s, h, hshares, hqueue, hall, hsome⟩

end Connection
