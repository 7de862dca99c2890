/-
From the job of a pool to the line with its share.

The miners of before, connected to their pools: `StratumMinerManager` to one pool,
`GpuStratumDevfundManager` to the user's pool and the development fund's.  Whatever
the interleaving, a share on the wire solves a job that the same connection has
received before.

* `StratumMiner.submit_solves` — a worker submits what solves a job it was given;
* `lines_answer_jobs` — every share on the wire of a pool, and the job it answers;
* `devfund_lines_answer_jobs` — the same for both pools of a device.
-/
import VelkarMiner.PoolSession
import VelkarMiner.ShareLimiter

open Bytes Rust

/-! ### What a worker submits -/

namespace StratumMiner

variable {ι : Type}

/-- A job the miner has been given, with some nonce. -/
def Given (tr : List (Miner ι × Event ι)) (s : State) : Prop :=
  ∃ m state nonce, (m, Event.job state) ∈ tr ∧ s = { state with nonce := nonce }

theorem Given.withNonce {tr : List (Miner ι × Event ι)} {i : Instance State}
    (h : Given tr i.value) (nonce : U64) : Given tr (i.withNonce nonce).value := by
  obtain ⟨m, state, n, hmem, hi⟩ := h
  exact ⟨m, state, nonce, hmem, by rw [Instance.withNonce_value, hi]⟩

theorem Given.concat {tr : List (Miner ι × Event ι)} {s : State} (h : Given tr s)
    (x : Miner ι × Event ι) : Given (tr ++ [x]) s := by
  obtain ⟨m, state, n, hmem, rfl⟩ := h
  exact ⟨m, state, n, List.mem_append_left _ hmem, rfl⟩

/-- The nonce of a state solves it, as the worker checks. -/
def Solves (cfg : Config ι) (w : ι) (s : State) : Prop :=
  if cfg.gpu w then s.calculatePow cfg.crates ≤ s.shareTarget
  else (∃ n, s.nonce = s.applyExtranonce n)
    ∧ (s.calculatePow cfg.crates ≤ s.blockTarget ∨ s.calculatePow cfg.crates ≤ s.shareTarget)

/-- In `found_share`. -/
def Pc.Found : Pc → Prop
  | share _ | exchange _ _ _ | submit _ => True
  | _ => False

/-- A worker holds a job that was given, and in `found_share` one that its nonce solves. -/
structure Working (cfg : Config ι) (w : ι) (tr : List (Miner ι × Event ι)) (x : Worker) : Prop where
  given : ∀ i ∈ x.state, Given tr i.value
  found : x.pc.Found → ∃ i ∈ x.state, Solves cfg w i.value

theorem Working.concat {cfg : Config ι} {w : ι} {tr : List (Miner ι × Event ι)} {x : Worker}
    (h : Working cfg w tr x) (y : Miner ι × Event ι) : Working cfg w (tr ++ [y]) x :=
  ⟨fun i hi => (h.given i hi).concat y, h.found⟩

/-- Outside of `found_share` only the job counts. -/
theorem Working.of_given {cfg : Config ι} {w : ι} {tr : List (Miner ι × Event ι)} {x : Worker}
    (hpc : ¬ x.pc.Found) (hgiven : ∀ i ∈ x.state, Given tr i.value) : Working cfg w tr x :=
  ⟨hgiven, fun h => absurd h hpc⟩

theorem not_found_resume (cfg : Config ι) (w : ι) (rest : List GpuHit) :
    ¬ (resume cfg w rest).Found := by
  rw [resume]
  split <;> exact id

variable [DecidableEq ι]

/-- A step of a worker. -/
theorem working_step {cfg : Config ι} {m m' : Miner ι} {e : Event ι} (h : Step cfg m e m') {w : ι}
    {tr : List (Miner ι × Event ι)} (hslot : ∀ i ∈ m.slot.inner, Given tr i.value)
    (hworking : Working cfg w tr (m.workers w)) : Working cfg w tr (m'.workers w) := by
  by_cases hw : e.worker = some w
  case neg =>
    rw [Step.workers_eq h hw]
    exact hworking
  case pos =>
    have hgiven := hworking.given
    cases h with
    | job | close => cases hw
    | wait w' hpc =>
      obtain rfl : w' = w := Option.some.inj hw
      rw [Miner.set_workers_self]
      exact .of_given (by simp [hpc, Pc.Found]) hslot
    | pollGpu w' hdev hpc =>
      obtain rfl : w' = w := Option.some.inj hw
      rw [Miner.set_workers_self]
      refine .of_given id fun i hi => ?_
      simp only at hi
      split at hi
      · cases hinner : m.slot.inner with
        | none => exact hgiven i (by simpa [hinner] using hi)
        | some j => exact hslot i (by simpa [hinner] using hi)
      · exact hgiven i hi
    | pollCpu w' hcpu hpc =>
      obtain rfl : w' = w := Option.some.inj hw
      rw [Miner.set_workers_self]
      refine .of_given id fun i hi => ?_
      simp only at hi
      split at hi
      · exact hslot i hi
      · exact hgiven i hi
    -- the two checks before `found_share`
    | hitOffered w' j hit rest pow hdev hpc hstate hoffer =>
      obtain rfl : w' = w := Option.some.inj hw
      rw [Miner.set_workers_self]
      obtain ⟨rfl, hle⟩ := gpuOffer_eq_some.mp hoffer
      refine ⟨?_, fun _ => ⟨_, rfl, ?_⟩⟩
      · rintro i ⟨⟩
        exact (hgiven j hstate).withNonce _
      · rw [Solves, if_pos hdev]
        exact hle
    | hashOffered w' j nonce pow hcpu hpc hstate hnonce hoffer =>
      obtain rfl : w' = w := Option.some.inj hw
      rw [Miner.set_workers_self]
      have htarget := cpuOffer_isSome.mp (Option.isSome_of_eq_some hoffer)
      refine ⟨?_, fun _ => ⟨_, rfl, ?_⟩⟩
      · rintro i ⟨⟩
        exact (hgiven j hstate).withNonce _
      · rw [Solves, if_neg (by simp [hcpu])]
        exact ⟨⟨_, hnonce⟩, htarget⟩
    | hitRejected w' j hit rest hdev hpc hstate hoffer =>
      obtain rfl : w' = w := Option.some.inj hw
      rw [Miner.set_workers_self]
      refine .of_given id ?_
      rintro i ⟨⟩
      exact (hgiven j hstate).withNonce _
    | hashRejected w' j nonce hcpu hpc hstate hnonce hoffer =>
      obtain rfl : w' = w := Option.some.inj hw
      rw [Miner.set_workers_self]
      refine .of_given id ?_
      rintro i ⟨⟩
      exact (hgiven j hstate).withNonce _
    -- inside `found_share` the job and the nonce stay
    | due w' now rest hpc hdue =>
      obtain rfl : w' = w := Option.some.inj hw
      rw [Miner.set_workers_self]
      exact ⟨hgiven, fun _ => hworking.found (by rw [hpc]; trivial)⟩
    | exchanged w' previous now rest hpc hcell =>
      obtain rfl : w' = w := Option.some.inj hw
      rw [Miner.set_workers_self]
      exact ⟨hgiven, fun _ => hworking.found (by rw [hpc]; trivial)⟩
    | early w' now rest hpc hearly | overtaken w' previous now rest hpc hcell
    | submit w' j jobId rest hpc hstate hjob hopen =>
      obtain rfl : w' = w := Option.some.inj hw
      rw [Miner.set_workers_self]
      exact .of_given (not_found_resume cfg w' rest) hgiven
    | begin w' i hpc hstate =>
      obtain rfl : w' = w := Option.some.inj hw
      rw [Miner.set_workers_self]
      refine .of_given ?_ hgiven
      show ¬ (if cfg.gpu w' then Pc.poll else Pc.work).Found
      split <;> exact id
    | _ w' =>
      obtain rfl : w' = w := Option.some.inj hw
      rw [Miner.set_workers_self]
      exact .of_given id hgiven

/-- The slot and the workers have nothing but what was given. -/
structure AllGiven (cfg : Config ι) (tr : List (Miner ι × Event ι)) (m : Miner ι) : Prop where
  slot : ∀ i ∈ m.slot.inner, Given tr i.value
  workers : ∀ w, Working cfg w tr (m.workers w)

/-- Only `process_job` changes the slot. -/
theorem slot_of_step {cfg : Config ι} {m m' : Miner ι} {e : Event ι} (h : Step cfg m e m') :
    (∃ state, e = .job state ∧ m'.slot = m.slot.swap (some state)) ∨ m'.slot = m.slot := by
  cases h with
  | job job state => exact Or.inl ⟨state, rfl, rfl⟩
  | _ => exact Or.inr rfl

theorem allGiven {cfg : Config ι} {tr : List (Miner ι × Event ι)} {m : Miner ι}
    (h : (machine cfg).Run tr m) : AllGiven cfg tr m := by
  refine h.induction (P := AllGiven cfg) ?_ ?_
  · intro m hm
    constructor
    · intro i hi
      rw [hm.slot_eq] at hi
      cases hi
    · intro w
      rw [hm.worker_eq w]
      exact .of_given id fun i hi => by cases hi
  · intro tr m e m' _ ih hstep
    have hslot : ∀ i ∈ m.slot.inner, Given (tr ++ [(m, e)]) i.value :=
      fun i hi => (ih.slot i hi).concat _
    refine ⟨fun i hi => ?_, fun w => working_step hstep hslot ((ih.workers w).concat _)⟩
    obtain ⟨state, rfl, hswap⟩ | hsame := slot_of_step hstep
    · rw [hswap] at hi
      obtain rfl : _ = i := Option.some.inj hi
      exact ⟨m, state, state.nonce, by simp, rfl⟩
    · rw [hsame] at hi
      exact hslot i hi

/-- What a worker submits names a job that the miner was given, and a nonce that solves it. -/
theorem submit_solves {cfg : Config ι} {w : ι} {tr : List (Miner ι × Event ι)} {m m' : Miner ι}
    {jobId nonce : Str} (h : (machine cfg).Run tr m)
    (hstep : Step cfg m (.submit w jobId nonce) m') :
    ∃ m₀ state n, (m₀, Event.job state) ∈ tr ∧ state.jobId = some jobId
      ∧ nonce = fmtHex 16 n.toNat ∧ Solves cfg w { state with nonce := n } := by
  have hworking := (allGiven h).workers w
  cases hstep with
  | submit w' i jobId rest hpc hstate hjob hopen =>
    obtain ⟨j, hj, hsolves⟩ := hworking.found (by rw [hpc]; trivial)
    obtain rfl : i = j := Option.some.inj (hstate.symm.trans hj)
    obtain ⟨m₀, state, n, hmem, hi⟩ := hworking.given i hstate
    rw [hi] at hjob hsolves
    exact ⟨m₀, state, n, hmem, hjob, by rw [hi], hsolves⟩

end StratumMiner

/-! ### What the pools read -/

namespace PoolSession

/-- The proof of work of a state meets the target of a job, and on a CPU the nonce keeps to the
extranonce that the job came with. -/
def SolvesJob (c : Crates) (gpu : Bool) (job : StratumJob) (s : State) : Prop :=
  if gpu then s.calculatePow c ≤ job.shareTarget
  else (∃ n, s.nonce = (n &&& job.nonceMask) ||| job.nonceFixed)
    ∧ (s.calculatePow c ≤ job.blockTarget ∨ s.calculatePow c ≤ job.shareTarget)

/-- A share with a job that one of the lines has announced, and a nonce that solves it. -/
def Answers (cfg : Connection.Config) (computeRank : Matrix64 → ℕ) (lines : List Str)
    (solves : StratumJob → State → Prop) (share : Str × Str) : Prop :=
  ∃ job id state nonce, Announced cfg.serde cfg.checks lines job
    ∧ state ∈ job.state computeRank id ∧ share = (job.jobId, fmtHex 16 nonce.toNat)
    ∧ solves job { state with nonce := nonce }

variable {κ τ δ : Type}

/-- A miner submits to a pool only what solves a job that it was given for it. -/
def OnlySolved (miner : Miner κ τ δ) (pool : κ) (solves : δ → StratumJob → State → Prop) : Prop :=
  ∀ pre m d m' jobId nonce, miner.machine.Run pre m → miner.machine.step m d m' →
    miner.port d = .share pool jobId nonce →
    ∃ m₀ d₀ state n, (m₀, d₀) ∈ pre ∧ miner.port d₀ = .job pool state
      ∧ state.jobId = some jobId ∧ nonce = fmtHex 16 n.toNat
      ∧ ∀ job id, state ∈ job.state miner.computeRank id → solves d job { state with nonce := n }

variable [DecidableEq κ]

/-- Then the shares on the wire of the pool answer its lines. -/
theorem line_answers {cfg : κ → Connection.Config} {miner : Miner κ τ δ} {pool : κ}
    {solves : δ → StratumJob → State → Prop} (hminer : OnlySolved miner pool solves)
    {tr : Trace κ τ δ} {s : Sides κ τ} (h : (machine cfg miner).Run tr s)
    (hline : ∀ value, '\n' ∉ (cfg pool).serde.display value) {k : ℕ} {bytes : List Byte}
    (hbytes : (Framing.cut Connection.NEWLINE (s.1 pool).wire).1[k + 2]? = some bytes) :
    ∃ pre s₀ share d post, tr = pre ++ (s₀, some (pool, .submit share), some d) :: post
      ∧ (Connection.shares (connection pool pre)).length = k
      ∧ bytes = asBytes ((cfg pool).serde.display
          ((cfg pool).submit share (BitVec.ofNat 64 (k + 3))))
      ∧ miner.port d = .share pool share.1 share.2
      ∧ Answers (cfg pool) miner.computeRank (Connection.received (connection pool pre)) (solves d)
          share := by
  obtain ⟨share, hshare, hwire⟩ := share_of_line hline h hbytes
  obtain ⟨pre, s₀, d, post, rfl, hk, hport, hrun, m, hstep⟩ := handed_over h hshare
  obtain ⟨hpre, -⟩ := h.split
  obtain ⟨m₀, d₀, state, n, hmem, hjob, hjobId, hnonce, hsolves⟩ :=
    hminer _ _ _ _ _ _ hrun hstep hport
  -- the job came with a line of the connection, before the share was handed over
  obtain ⟨job, hannounced, id, hstate⟩ := delivered hpre _ hmem pool state hjob
  have hname : share.1 = job.jobId := by
    obtain ⟨matrix, -, rfl⟩ := State.mem_fromComponents.mp hstate
    exact (Option.some.inj hjobId).symm
  exact ⟨pre, s₀, share, d, post, rfl, hk, hwire, hport, job, id, state, n,
    Connection.announced_run (connection_run hpre pool) hannounced, hstate,
    Prod.ext hname hnonce, hsolves job id hstate⟩

/-! ### A run with a share -/

section At

variable {cfg : Connection.Config} {c c' d d' : Connection.State}

/-- A connection goes on by itself, and no job comes. -/
def Quiet (cfg : Connection.Config) : Connection.State → Connection.State → Prop :=
  Relation.ReflTransGen fun c d => ∃ e, Connection.Step cfg c e d ∧ e.share = none ∧ e ≠ .drop
    ∧ d.session.jobs = c.session.jobs

theorem Quiet.step {e : Connection.Event} (h : Quiet cfg c d) (hstep : Connection.Step cfg d e d')
    (hshare : e.share = none) (hdrop : e ≠ .drop) (hjobs : d'.session.jobs = d.session.jobs) :
    Quiet cfg c d' :=
  h.tail ⟨e, hstep, hshare, hdrop, hjobs⟩

theorem step_of_handled {text : Str} {session : Session} (hpc : c.pc = .select)
    (hline : handleLine cfg.serde cfg.checks text c.session = (.ok (), session)) :
    Connection.Step cfg c (.line text) { c with session := session, pc := .check } := by
  have hstep : Connection.Step cfg c (.line text) _ := .line c text hpc
  simpa only [hline, if_true] using hstep

/-- The listener hands a line to the writer. -/
theorem Quiet.send (h : Quiet cfg c d) {line : Str} {pc : Connection.Pc}
    (hpc : d.pc.sending = some (line, pc)) (hroom : d.writerQueue.length < 64)
    (hwriter : d.writer = .idle) :
    Quiet cfg c { d with writerQueue := d.writerQueue ++ [line], pc := pc } := by
  refine h.step (.send d line pc hpc hroom ?_) rfl (by simp) rfl
  rw [hwriter]
  rintro (h | h) <;> cases h

/-- The writer takes a line and writes it. -/
theorem Quiet.write (h : Quiet cfg c d) {line : Str} {rest : List Str} (hidle : d.writer = .idle)
    (hqueue : d.writerQueue = line :: rest) (hline : 0 < (asBytes line).length) :
    Quiet cfg c { d with
      writerQueue := rest, wire := d.wire ++ (asBytes line ++ [Connection.NEWLINE]) } := by
  have htaken := h.step (.take _ line rest hidle hqueue) rfl (by simp) rfl
  have hwritten := htaken.step (.write _ _ _ rfl hline le_rfl) rfl (by simp) rfl
  have hended := (hwritten.step (.endLine _ (congrArg Connection.Writer.line List.drop_length)) rfl
    (by simp) rfl).step (.newline _ rfl) rfl (by simp) rfl
  simpa [List.take_length, hidle] using hended

/-- The writer writes all that is in its queue. -/
theorem Quiet.writeAll (h : Quiet cfg c d) {lines : List Str} (hidle : d.writer = .idle)
    (hqueue : d.writerQueue = lines) (hlines : ∀ line ∈ lines, 0 < (asBytes line).length) :
    Quiet cfg c { d with
      writerQueue := []
      wire := d.wire ++ Framing.frames Connection.NEWLINE (lines.map asBytes) } := by
  induction lines generalizing d with
  | nil =>
    obtain ⟨_, _, _, _, _, _, _, _⟩ := d
    obtain rfl := hqueue
    simpa using h
  | cons line lines ih =>
    have hfirst := h.write hidle hqueue (hlines line List.mem_cons_self)
    have hrest := ih hfirst hidle rfl fun line hline => hlines line (List.mem_cons_of_mem _ hline)
    simpa using hrest

variable {cfg : κ → Connection.Config} {miner : Miner κ τ δ} {pool : κ} {m n : τ} {e : δ}

/-- A run leads to these states of one connection and of the miner. -/
def At (cfg : κ → Connection.Config) (miner : Miner κ τ δ) (pool : κ) (c : Connection.State)
    (m : τ) : Prop :=
  ∃ tr s, (machine cfg miner).Run tr s ∧ s.1 pool = c ∧ s.2 = m

theorem At.initial (h : miner.machine.init m) : At cfg miner pool Connection.initial m :=
  have start : (machine cfg miner).init (fun _ => Connection.initial, m) := ⟨fun _ => rfl, h⟩
  ⟨[], _, ⟨_, start, .refl⟩, rfl, rfl⟩

/-- A step of the connection, as far as the coupling allows it. -/
theorem At.step (h : At cfg miner pool c m) {a : Connection.Event} {b : Option δ}
    (hconn : Connection.Step (cfg pool) c a d) (hminer : miner.machine.Moves m b n)
    (htogether : ∀ s t : Sides κ τ, s.1 pool = c → s.2 = m → t.1 pool = d →
      Together miner s (some (pool, a)) b t) : At cfg miner pool d n := by
  obtain ⟨tr, s, hrun, rfl, rfl⟩ := h
  refine ⟨_, (Function.update s.1 pool d, n),
    hrun.concat (e := (some (pool, a), b)) ⟨⟨d, hconn, rfl⟩, hminer, ?_⟩, ?_, rfl⟩
  · exact htogether _ _ rfl rfl (Function.update_self ..)
  · exact Function.update_self ..

theorem At.quiet (h : At cfg miner pool c m) (hquiet : Quiet (cfg pool) c d) :
    At cfg miner pool d m := by
  induction hquiet with
  | refl => exact h
  | tail _ hstep ih =>
    obtain ⟨a, hstep, hshare, hdrop, hjobs⟩ := hstep
    refine ih.step (b := none) hstep rfl fun s t hs _ ht => .connection hshare hdrop ?_
    rw [hs, ht, hjobs]

theorem At.own (h : At cfg miner pool c m) (hstep : miner.machine.step m e n)
    (hport : miner.port e = .own) : At cfg miner pool c n := by
  obtain ⟨tr, s, hrun, rfl, rfl⟩ := h
  exact ⟨_, (s.1, n), hrun.concat (e := (none, some e)) ⟨rfl, hstep, .miner hport⟩, rfl, rfl⟩

/-- A line with a job. -/
theorem At.job (h : At cfg miner pool c m) {text : Str} {session : Session} {job : StratumJob}
    {state : State} (hpc : c.pc = .select)
    (hline : handleLine (cfg pool).serde (cfg pool).checks text c.session = (.ok (), session))
    (hjobs : session.jobs = job :: c.session.jobs) (hport : miner.port e = .job pool state)
    (hstate : state ∈ job.state miner.computeRank (miner.currentStateId m pool))
    (hstep : miner.machine.step m e n) :
    At cfg miner pool { c with session := session, pc := .check } n := by
  refine h.step (b := some e) (step_of_handled hpc hline) hstep fun s t hs hm ht => ?_
  refine .job hport ?_ (by rwa [hm])
  rw [hs, ht, hjobs]

/-- A share. -/
theorem At.share (h : At cfg miner pool c m) {jobId nonce : Str} (hpc : c.pc.Connected)
    (hopen : c.submitOpen = true) (hroom : c.submitQueue.length < 64)
    (hport : miner.port e = .share pool jobId nonce) (hstep : miner.machine.step m e n) :
    At cfg miner pool { c with submitQueue := c.submitQueue ++ [(jobId, nonce)] } n :=
  h.step (b := some e) (.submit c _ hpc hopen hroom) hstep fun _ _ _ _ _ => .share hport

end At

/-- The line of a job that every other nonce solves. -/
def sampleTarget : Str := "7fffff".toList ++ List.replicate 58 '0'

def sampleLine : Str :=
  "\x7b\"method\":\"mining.notify\",\"params\":[\"1\",[14566434536323540221,".toList
    ++ "17708695633936273877,16887608807958520181,11892148821749950370],7,\"".toList
    ++ sampleTarget ++ "\",\"".toList ++ sampleTarget ++ "\"]\x7d".toList

def sampleValue : Value :=
  .object [("method".toList, .string "mining.notify".toList),
    ("params".toList, .array [.string "1".toList,
      .array [.number (.posInt 14566434536323540221), .number (.posInt 17708695633936273877),
        .number (.posInt 16887608807958520181), .number (.posInt 11892148821749950370)],
      .number (.posInt 7), .string sampleTarget, .string sampleTarget])]

/-- Numbers are written too. -/
def sampleDisplay : Value → Str
  | .number (.posInt n) => fmtDec n.toNat
  | value => Connection.sampleDisplay value

theorem newline_notMem_sampleDisplay (value : Value) : '\n' ∉ sampleDisplay value := by
  unfold sampleDisplay
  split
  · exact Connection.newline_notMem_digits (allDigits_fmtDec _)
  · exact Connection.newline_notMem_sampleDisplay value

def sampleConfig : Connection.Config where
  serde := ⟨fun line => if line = sampleLine then .ok sampleValue else historySerde.fromStr line,
    sampleDisplay⟩
  checks := false
  workerName := "velkar:miner".toList
  userAgentSuffix := some "rig".toList

def sampleHandler : StratumHandler := ⟨some "1".toList, BitVec.allOnes 64, 0⟩

/-- A difficulty and the job of the sample: what a pool sends. -/
theorem sample_lines :
    handleLine sampleConfig.serde sampleConfig.checks difficultyLine ⟨.connect, []⟩
        = (.ok (), ⟨sampleHandler, []⟩)
      ∧ handleLine sampleConfig.serde sampleConfig.checks sampleLine ⟨sampleHandler, []⟩
        = (.ok (), ⟨sampleHandler, [sampleStratumJob]⟩) := by
  decide +kernel

def sampleShare : Str × Str := ("1".toList, "0000000000000002".toList)

/-- The connection of the sample once it listens. -/
def sampleListening (session : Session) (shares : List (Str × Str)) : Connection.State :=
  { Connection.initial with
    requestId := 3
    session := session
    pc := .select
    submitQueue := shares
    writerQueue := sampleConfig.lines [] }

theorem sample_listens :
    Quiet sampleConfig Connection.initial (sampleListening ⟨sampleHandler, []⟩ []) := by
  have start : Quiet sampleConfig Connection.initial Connection.initial := .refl
  have subscribed := (start.step (.subscribe _ rfl) rfl (by simp) rfl).send rfl (by decide) rfl
  have connected : Quiet sampleConfig _ (sampleListening ⟨.connect, []⟩ []) :=
    (subscribed.step (.authorize _ rfl) rfl (by simp) rfl).send rfl (by decide) rfl
  exact (connected.step (step_of_handled rfl sample_lines.1) rfl (by simp) rfl).step
    (.check _ false rfl) rfl (by simp) rfl

theorem sample_writes :
    ∃ s, Quiet sampleConfig (sampleListening ⟨sampleHandler, [sampleStratumJob]⟩ [sampleShare]) s
      ∧ s.wire
        = Framing.frames Connection.NEWLINE ((sampleConfig.lines [sampleShare]).map asBytes) := by
  have start : Quiet sampleConfig
      (sampleListening ⟨sampleHandler, [sampleStratumJob]⟩ [sampleShare]) _ := .refl
  have taken := (start.step (.command _ sampleShare [] rfl rfl) rfl (by simp) rfl).send rfl
    (by decide) rfl
  exact ⟨_, taken.writeAll rfl rfl (by decide), rfl⟩

theorem cut_sample_lines :
    (Framing.cut Connection.NEWLINE
        (Framing.frames Connection.NEWLINE ((sampleConfig.lines [sampleShare]).map asBytes))).1
      = (sampleConfig.lines [sampleShare]).map asBytes := by
  have hlines : ∀ bytes ∈ (sampleConfig.lines [sampleShare]).map asBytes,
      Connection.NEWLINE ∉ bytes := by
    intro bytes hbytes hnewline
    obtain ⟨line, hmem, rfl⟩ := List.mem_map.mp hbytes
    obtain ⟨request, -, rfl⟩ := List.mem_map.mp hmem
    exact newline_notMem_sampleDisplay _ (Connection.newline_mem_asBytes hnewline)
  have hcut := Framing.cut_frames Connection.NEWLINE hlines (List.not_mem_nil)
  rw [List.append_nil] at hcut
  rw [hcut]

/-- The pool and a miner that has been given the job of the sample. -/
abbrev SampleAt (miner : Miner κ τ δ) (pool : κ) : τ → Prop :=
  At (fun _ => sampleConfig) miner pool (sampleListening ⟨sampleHandler, [sampleStratumJob]⟩ [])

theorem sample_given {miner : Miner κ τ δ} {pool : κ} {m₀ m₁ : τ} {e : δ} {state : State}
    (hinit : miner.machine.init m₀) (hjob : miner.port e = .job pool state)
    (hstate : state ∈ sampleStratumJob.state miner.computeRank (miner.currentStateId m₀ pool))
    (hstep : miner.machine.step m₀ e m₁) : SampleAt miner pool m₁ := by
  have listening : At (fun _ => sampleConfig) miner pool
      (sampleListening ⟨sampleHandler, []⟩ []) m₀ := (At.initial hinit).quiet sample_listens
  have hline : handleLine sampleConfig.serde sampleConfig.checks sampleLine
      (sampleListening ⟨sampleHandler, []⟩ []).session
      = (.ok (), ⟨sampleHandler, [sampleStratumJob]⟩) := sample_lines.2
  have given := listening.job rfl hline rfl hjob hstate hstep
  exact given.quiet (.tail .refl ⟨_, .check _ false rfl, rfl, by simp, rfl⟩)

/-- The share of the miner is the third line of the pool. -/
theorem sample_answered {miner : Miner κ τ δ} {pool : κ} {m m' : τ} {e : δ}
    (h : SampleAt miner pool m) (hport : miner.port e = .share pool sampleShare.1 sampleShare.2)
    (hstep : miner.machine.step m e m') :
    ∃ tr s, (machine (fun _ => sampleConfig) miner).Run tr s
      ∧ ∃ bytes, (Framing.cut Connection.NEWLINE (s.1 pool).wire).1[2]? = some bytes := by
  have handed := h.share trivial rfl (by decide) hport hstep
  obtain ⟨c, hc, hwire⟩ := sample_writes
  obtain ⟨tr, s, hrun, hs, -⟩ := handed.quiet hc
  refine ⟨tr, s, hrun, ?_⟩
  rw [hs, hwire, cut_sample_lines]
  exact ⟨_, rfl⟩

/-! ### One pool -/

/-- `StratumMinerManager`, with its one pool. -/
def stratumMiner {ι : Type} [DecidableEq ι] (cfg : Config ι) :
    Miner Unit (StratumMiner.Miner ι) (StratumMiner.Event ι) where
  machine := StratumMiner.machine cfg
  port
    | .job state => .job () state
    | .submit _ jobId nonce => .share () jobId nonce
    | .close => .close ()
    | _ => .own
  computeRank := cfg.computeRank
  currentStateId m _ := m.currentStateId

theorem solvesJob_of_solves {ι : Type} {cfg : Config ι} {w : ι} {job : StratumJob} {id n : U64}
    {state : State} (hstate : state ∈ job.state cfg.computeRank id)
    (h : StratumMiner.Solves cfg w { state with nonce := n }) :
    SolvesJob cfg.crates (cfg.gpu w) job { state with nonce := n } := by
  obtain ⟨matrix, -, rfl⟩ := State.mem_fromComponents.mp hstate
  exact h

/-- The worker of an event solves a job, as workers of its kind do. -/
def SolvesOf {ι : Type} (cfg : Config ι) (d : StratumMiner.Event ι) (job : StratumJob)
    (s : State) : Prop :=
  ∀ w, d.worker = some w → SolvesJob cfg.crates (cfg.gpu w) job s

theorem stratumMiner_onlySolved {ι : Type} [DecidableEq ι] (cfg : Config ι) :
    OnlySolved (stratumMiner cfg) () (SolvesOf cfg) := by
  intro pre m d m' jobId nonce hrun hstep hport
  cases d with
  | submit w jobId' nonce' =>
    obtain ⟨rfl, rfl⟩ : jobId' = jobId ∧ nonce' = nonce := by simpa [stratumMiner] using hport
    obtain ⟨m₀, state, n, hmem, hjob, hnonce, hsolves⟩ := StratumMiner.submit_solves hrun hstep
    refine ⟨m₀, _, state, n, hmem, rfl, hjob, hnonce, fun job id hstate w' hw => ?_⟩
    obtain rfl : w = w' := Option.some.inj hw
    exact solvesJob_of_solves hstate hsolves
  | _ => cases hport

/-- Whatever the interleaving of the workers, the listener and the writing task: every line that
the pool has received in full after the first two is a share that a worker has submitted, with a
job that the pool had announced by then and a nonce that solves it. -/
theorem lines_answer_jobs {ι : Type} [DecidableEq ι] (cfg : Connection.Config)
    (hline : ∀ value, '\n' ∉ cfg.serde.display value) (miner : Config ι)
    {tr : Trace Unit (StratumMiner.Miner ι) (StratumMiner.Event ι)}
    {s : Sides Unit (StratumMiner.Miner ι)}
    (h : (machine (fun _ => cfg) (stratumMiner miner)).Run tr s) {k : ℕ} {bytes : List Byte}
    (hbytes : (Framing.cut Connection.NEWLINE (s.1 ()).wire).1[k + 2]? = some bytes) :
    ∃ pre s₀ share w post,
      tr = pre ++ (s₀, some ((), .submit share), some (.submit w share.1 share.2)) :: post
      ∧ (Connection.shares (connection () pre)).length = k
      ∧ bytes = asBytes (cfg.serde.display (cfg.submit share (BitVec.ofNat 64 (k + 3))))
      ∧ Answers cfg miner.computeRank (Connection.received (connection () pre))
          (SolvesJob miner.crates (miner.gpu w)) share := by
  obtain ⟨pre, s₀, share, d, post, rfl, hk, hwire, hport, hanswers⟩ :=
    line_answers (stratumMiner_onlySolved miner) h hline hbytes
  cases d with
  | submit w jobId nonce =>
    obtain ⟨rfl, rfl⟩ : jobId = share.1 ∧ nonce = share.2 := by simpa [stratumMiner] using hport
    obtain ⟨job, id, state, n, hannounced, hstate, hshare, hsolves⟩ := hanswers
    exact ⟨pre, s₀, share, w, post, rfl, hk, hwire, job, id, state, n, hannounced, hstate, hshare,
      hsolves w rfl⟩
  | _ => cases hport

/-- A worker on a CPU sends its share for the job of the sample. -/
theorem lines_answer_jobs_sample : ∃ tr s bytes,
    (machine (fun _ => sampleConfig) (stratumMiner StratumMiner.pairConfig)).Run tr s
      ∧ (Framing.cut Connection.NEWLINE (s.1 ()).wire).1[2]? = some bytes
      ∧ ∃ pre s₀ share w post,
        tr = pre ++ (s₀, some ((), .submit share), some (.submit w share.1 share.2)) :: post
        ∧ (Connection.shares (connection () pre)).length = 0
        ∧ bytes = asBytes (sampleConfig.serde.display (sampleConfig.submit share 3))
        ∧ Answers sampleConfig (fun _ => 64) (Connection.received (connection () pre))
            (SolvesJob State.sampleCrates false) share := by
  have hinit : (StratumMiner.machine StratumMiner.pairConfig).init StratumMiner.pairMiner :=
    ⟨rfl, rfl, rfl, rfl, fun _ => rfl⟩
  have given : SampleAt (stratumMiner StratumMiner.pairConfig) () _ :=
    sample_given hinit rfl sampleStratumJob_mem (.job _ _ _ sampleStratumJob_mem)
  have began := (given.own (.wait _ 0 rfl rfl (by decide)) rfl).own
    (.begin _ 0 sampleInstance rfl rfl) rfl
  have offered := began.own (.hashOffered _ 0 sampleInstance 2 State.samplePow rfl rfl rfl
    (StratumMiner.applyExtranonce_of_sample (Or.inl rfl))
    (StratumMiner.cpuOffer_of_sample (Or.inl rfl))) rfl
  have exchanged := (offered.own (.due _ 0 1000 [] rfl (by decide)) rfl).own
    (.exchanged _ 0 _ 1000 [] rfl rfl) rfl
  obtain ⟨tr, s, hrun, bytes, hbytes⟩ := sample_answered exchanged rfl
    (.submit _ 0 (sampleInstance.withNonce 2) "1".toList [] rfl rfl rfl rfl)
  exact ⟨tr, s, bytes, hrun, hbytes, lines_answer_jobs sampleConfig newline_notMem_sampleDisplay
    StratumMiner.pairConfig hrun hbytes⟩

/-! ### Two pools -/

/-- `GpuStratumDevfundManager`, with both pools. -/
def devfundMiner (cfg : Devfund.Config) : Miner Devfund.Pool Devfund.Scheduler Devfund.Event where
  machine := Devfund.machine cfg
  port
    | .job pool state => .job pool state
    | .submit pool jobId nonce => .share pool jobId nonce
    | .close pool => .close pool
    | _ => .own
  computeRank := cfg.computeRank
  currentStateId s pool := s.currentStateId pool

theorem devfund_submit_solves {cfg : Devfund.Config}
    {pre : List (Devfund.Scheduler × Devfund.Event)} {m m' : Devfund.Scheduler}
    {pool : Devfund.Pool} {jobId nonce : Str} (h : (Devfund.machine cfg).Run pre m)
    (hstep : Devfund.Step cfg m (.submit pool jobId nonce) m') :
    ∃ m₀ state n, (m₀, Devfund.Event.job pool state) ∈ pre ∧ state.jobId = some jobId
      ∧ nonce = fmtHex 16 n.toNat ∧ ∀ job id, state ∈ job.state cfg.computeRank id →
        SolvesJob cfg.crates true job { state with nonce := n } := by
  obtain ⟨i, hits, -, ⟨m₀, state, n, hmem, rfl⟩, hjob, hit, -, hnonce, hpow⟩ :=
    Devfund.submit_checked h hstep
  refine ⟨m₀, state, hit.nonce, hmem, hjob, hnonce, fun job id hstate => ?_⟩
  obtain ⟨matrix, -, rfl⟩ := State.mem_fromComponents.mp hstate
  exact hpow

theorem devfundMiner_onlySolved (miner : Devfund.Config) (pool : Devfund.Pool) :
    OnlySolved (devfundMiner miner) pool fun _ => SolvesJob miner.crates true := by
  intro pre m d m' jobId nonce hrun hstep hport
  cases d with
  | submit pool' jobId' nonce' =>
    obtain ⟨rfl, rfl, rfl⟩ : pool' = pool ∧ jobId' = jobId ∧ nonce' = nonce := by
      simpa [devfundMiner] using hport
    obtain ⟨m₀, state, n, hmem, hjob, hnonce, hsolves⟩ := devfund_submit_solves hrun hstep
    exact ⟨m₀, _, state, n, hmem, rfl, hjob, hnonce, hsolves⟩
  | _ => cases hport

/-- The same for a device with two pools: a share on the wire of either pool answers a line that
this pool itself has sent. -/
theorem devfund_lines_answer_jobs (cfg : Devfund.Pool → Connection.Config) (pool : Devfund.Pool)
    (hline : ∀ value, '\n' ∉ (cfg pool).serde.display value) (miner : Devfund.Config)
    {tr : Trace Devfund.Pool Devfund.Scheduler Devfund.Event}
    {s : Sides Devfund.Pool Devfund.Scheduler}
    (h : (machine cfg (devfundMiner miner)).Run tr s) {k : ℕ} {bytes : List Byte}
    (hbytes : (Framing.cut Connection.NEWLINE (s.1 pool).wire).1[k + 2]? = some bytes) :
    ∃ pre s₀ share post,
      tr = pre ++ (s₀, some (pool, .submit share), some (.submit pool share.1 share.2)) :: post
      ∧ (Connection.shares (connection pool pre)).length = k
      ∧ bytes = asBytes ((cfg pool).serde.display
          ((cfg pool).submit share (BitVec.ofNat 64 (k + 3))))
      ∧ Answers (cfg pool) miner.computeRank (Connection.received (connection pool pre))
          (SolvesJob miner.crates true) share := by
  obtain ⟨pre, s₀, share, d, post, rfl, hk, hwire, hport, hanswers⟩ :=
    line_answers (devfundMiner_onlySolved miner pool) h hline hbytes
  cases d with
  | submit pool' jobId nonce =>
    obtain ⟨rfl, rfl, rfl⟩ : pool' = pool ∧ jobId = share.1 ∧ nonce = share.2 := by
      simpa [devfundMiner] using hport
    exact ⟨pre, s₀, share, post, rfl, hk, hwire, hanswers⟩
  | _ => cases hport

/-- The device sends a share for the job of the user's pool. -/
theorem devfund_lines_answer_jobs_sample : ∃ tr s bytes,
    (machine (fun _ => sampleConfig) (devfundMiner Devfund.sampleConfig)).Run tr s
      ∧ (Framing.cut Connection.NEWLINE (s.1 .main).wire).1[2]? = some bytes
      ∧ ∃ pre s₀ share post,
        tr = pre ++ (s₀, some (.main, .submit share), some (.submit .main share.1 share.2)) :: post
        ∧ (Connection.shares (connection .main pre)).length = 0
        ∧ bytes = asBytes (sampleConfig.serde.display (sampleConfig.submit share 3))
        ∧ Answers sampleConfig (fun _ => 64) (Connection.received (connection .main pre))
            (SolvesJob State.sampleCrates true) share := by
  have hinit : (Devfund.machine Devfund.sampleConfig).init Devfund.sampleScheduler :=
    ⟨rfl, rfl, rfl, rfl, rfl, rfl, rfl, rfl, rfl⟩
  have given : SampleAt (devfundMiner Devfund.sampleConfig) .main _ :=
    sample_given hinit rfl sampleStratumJob_mem (.job _ .main _ _ sampleStratumJob_mem)
  have polled := ((given.own (.wait _ rfl rfl (by decide)) rfl).own (.poll _ .main rfl) rfl).own
    (.poll _ .dev rfl) rfl
  have chosen := polled.own
    (.chooseMain _ _ rfl (by rintro ⟨h, -⟩; exact absurd h (by decide)) rfl) rfl
  have batched := chosen.own (.batch _ .main _ [⟨2, State.samplePow⟩] rfl rfl) rfl
  have hoffer : submitHitOffer State.sampleCrates sampleInstance.value ⟨2, State.samplePow⟩
      = some State.samplePow :=
    (submitHitOffer_eq_gpuOffer ..).trans (gpuOffer_sample _)
  obtain ⟨tr, s, hrun, bytes, hbytes⟩ := sample_answered batched rfl
    (.hitSubmit _ .main sampleInstance ⟨2, State.samplePow⟩ [] State.samplePow 1000 "1".toList rfl
      rfl hoffer (by decide) rfl rfl)
  exact ⟨tr, s, bytes, hrun, hbytes, devfund_lines_answer_jobs (fun _ => sampleConfig) .main
    newline_notMem_sampleDisplay Devfund.sampleConfig hrun hbytes⟩

end PoolSession
