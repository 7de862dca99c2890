/-
Templates of the node and the slot of the solo miners (`VelkardHandler::handle_message` of
`src/client.rs`, `MinerManager::process_block` of `src/miner.rs`).

The handler decides from the answer whether a template is to be mined; the manager keeps a
flag of its own, and does not touch the slot for an unsynced answer when the flag is down
already.

* `processBlock_steps` — `process_block` is what the listener of the solo machine does;
* `step_cases` — what one message does to the slot and the flag;
* `empty_of_unsynced` — the flag is down only over an empty slot;
* `slot_follows_templates` — the slot after any sequence of messages.
-/
import VelkarMiner.Client
import VelkarMiner.SoloMiner

open Rust

/-! ### The manager -/

/-- The fields of the manager that the listener reads or writes. -/
structure MinerManager where
  isSynced : Bool
  currentStateId : U64
  solvedStateId : U64
  slot : Slot State

namespace MinerManager

def new : MinerManager := ⟨true, 0, Solo.UNSOLVED, Slot.empty⟩

def processBlock (c : Crates) (computeRank : Matrix64 → ℕ) (self : MinerManager)
    (block : Option RpcBlock) : Part (Outcome Error Unit × MinerManager) :=
  match block with
  | some b =>
    let id := self.currentStateId
    let self := { self with isSynced := true, currentStateId := id + 1 }
    (State.new c computeRank id b).map fun
      | .ok state => (.ok (), { self with
          solvedStateId := Solo.UNSOLVED, slot := self.slot.swap (some state) })
      | .err e => (.err e, self)
      | .panic => (.panic, self)
  | none =>
    if self.isSynced then
      Part.some (.ok (), { self with
        isSynced := false, solvedStateId := Solo.UNSOLVED, slot := self.slot.swap none })
    else Part.some (.ok (), self)

variable {c : Crates} {computeRank : Matrix64 → ℕ} {self self' : MinerManager} {block : RpcBlock}
  {result : Outcome Error Unit}

/-- A block that makes a state: the state is in the slot. -/
theorem processBlock_some {state : State}
    (hnew : Outcome.ok state ∈ State.new c computeRank self.currentStateId block)
    (h : (result, self') ∈ processBlock c computeRank self (some block)) :
    result = .ok () ∧ self' = { self with
      isSynced := true, currentStateId := self.currentStateId + 1,
      solvedStateId := Solo.UNSOLVED, slot := self.slot.swap (some state) } := by
  obtain ⟨r, hr, heq⟩ := (Part.mem_map_iff _).mp h
  obtain rfl := Part.mem_unique hnew hr
  obtain ⟨rfl, rfl⟩ := Prod.mk.inj heq
  exact ⟨rfl, rfl⟩

/-- No block: the flag is down afterwards, and the slot is emptied unless it was down before. -/
theorem processBlock_none (h : (result, self') ∈ processBlock c computeRank self none) :
    result = .ok () ∧ self'.isSynced = false
      ∧ (self.isSynced = false ∧ self' = self ∨ self'.slot = self.slot.swap none) := by
  rw [processBlock] at h
  split at h
  case isTrue =>
    obtain ⟨rfl, rfl⟩ := Prod.mk.inj (Part.mem_some_iff.mp h)
    exact ⟨rfl, rfl, Or.inr rfl⟩
  case isFalse hdown =>
    obtain ⟨rfl, rfl⟩ := Prod.mk.inj (Part.mem_some_iff.mp h)
    have hdown : self'.isSynced = false := by simpa using hdown
    exact ⟨rfl, hdown, Or.inl ⟨hdown, rfl⟩⟩

end MinerManager

/-! ### The listener of the solo machine -/

namespace Solo

/-- What the listener works on. -/
def Miner.manager {ι : Type} (m : Miner ι) : MinerManager :=
  ⟨m.isSynced, m.currentStateId, m.solvedStateId, m.slot⟩

/-- A call of `process_block` that succeeds is a path of the solo machine. -/
theorem processBlock_steps {ι : Type} [DecidableEq ι] {cfg : Config ι} {m : Miner ι}
    (hidle : m.listener = .idle) {block : Option RpcBlock} {manager : MinerManager}
    (h : (.ok (), manager) ∈ m.manager.processBlock cfg.crates cfg.computeRank block) :
    ∃ tr m', (machine cfg).Steps m tr m' ∧ m'.manager = manager ∧ m'.listener = .idle
      ∧ m'.workers = m.workers := by
  cases block with
  | some b =>
    obtain ⟨r, hr, heq⟩ := (Part.mem_map_iff _).mp h
    cases r with
    | ok state =>
      obtain ⟨-, rfl⟩ := Prod.mk.inj heq
      have h1 := Machine.Steps.step (M := machine cfg) .refl (Step.template m b state hidle hr)
      have h2 := h1.step (Step.store _ (some state) rfl)
      have h3 := h2.step (Step.swap _ (some state) rfl)
      exact ⟨_, _, h3, rfl, rfl, rfl⟩
    | err e => cases heq
    | panic => cases heq
  | none =>
    rw [MinerManager.processBlock] at h
    split at h
    case isTrue hup =>
      obtain ⟨-, rfl⟩ := Prod.mk.inj (Part.mem_some_iff.mp h)
      have h1 := Machine.Steps.step (M := machine cfg) .refl (Step.unsynced m hidle hup)
      have h2 := h1.step (Step.store _ none rfl)
      have h3 := h2.step (Step.swap _ none rfl)
      exact ⟨_, _, h3, rfl, rfl, rfl⟩
    case isFalse =>
      obtain ⟨-, rfl⟩ := Prod.mk.inj (Part.mem_some_iff.mp h)
      exact ⟨[], m, .refl, rfl, hidle, rfl⟩

end Solo

/-! ### Messages -/

structure GetBlockTemplateResponse where
  block : Option RpcBlock
  isSynced : Bool
  error : Option Str

/-- The payloads that the handler tells apart, errors by their texts. -/
inductive Payload where
  | newBlockTemplateNotification
  | getBlockTemplateResponse (template : GetBlockTemplateResponse)
  | submitBlockResponse (error : Option Str)
  | getBlockResponse (error : Option Str)
  | getInfoResponse
  | notifyNewBlockTemplateResponse (error : Option Str)
  | other

namespace VelkardHandler

/-- `handle_message`, with the receiver of the channel there (`true`) or gone. -/
def handleMessage (c : Crates) (computeRank : Matrix64 → ℕ) (checks channelOpen : Bool)
    (self : VelkardHandler) (msg : Payload) (miner : MinerManager) :
    Part (Outcome Error Unit × VelkardHandler × MinerManager) :=
  match msg with
  | .newBlockTemplateNotification =>
    match clientGetBlockTemplate checks self with
    | (.ok _, self) =>
      Part.some (if channelOpen then .ok () else .err (.message "channel closed".toList), self,
        miner)
    | (.err e, self) => Part.some (.err e, self, miner)
    | (.panic, self) => Part.some (.panic, self, miner)
  | .getBlockTemplateResponse template =>
    let process :=
      fun block => (miner.processBlock c computeRank block).map fun r => (r.1, self, r.2)
    match template.block, template.isSynced, template.error with
    | some b, true, none => process (some b)
    | some b, false, none => if self.mineWhenNotSynced then process (some b) else process none
    | none, false, none => process none
    | _, _, some _ => Part.some (.ok (), self, miner)
    | none, true, none => Part.some (.ok (), self, miner)
  | .getBlockResponse (some message) => Part.some (.err (.message message), self, miner)
  | _ => Part.some (.ok (), self, miner)

end VelkardHandler

/-! ### Runs of a connection -/

structure Client where
  handler : VelkardHandler
  miner : MinerManager

/-- A message, whether it finds the channel open, and what becomes of the call. -/
structure Message where
  payload : Payload
  channelOpen : Bool
  result : Outcome Error Unit

namespace Client

section

variable (c : Crates) (computeRank : Matrix64 → ℕ) (checks : Bool)

/-- A connection with a new manager, under any of the settings. -/
def machine : Machine Client Message where
  init s := s.miner = MinerManager.new
  step s e t := (e.result, t.handler, t.miner)
    ∈ s.handler.handleMessage c computeRank checks e.channelOpen e.payload s.miner

/-- `State::new` accepts the block of the message. -/
def BlocksAccepted (x : Client × Message) : Prop :=
  ∀ template, x.2.payload = .getBlockTemplateResponse template → ∀ b ∈ template.block,
    ∃ state, Outcome.ok state ∈ State.new c computeRank x.1.miner.currentStateId b

end

/-- The template is accepted for mining. -/
def Accepts (x : Client × Message) (b : RpcBlock) : Prop :=
  ∃ template, x.2.payload = .getBlockTemplateResponse template ∧ template.block = some b
    ∧ template.error = none ∧ (template.isSynced = true ∨ x.1.handler.mineWhenNotSynced = true)

/-- A template without an error that is unsynced and not accepted. -/
def Rejects (x : Client × Message) : Prop :=
  ∃ template, x.2.payload = .getBlockTemplateResponse template ∧ template.error = none
    ∧ template.isSynced = false ∧ ∀ b, ¬ Accepts x b

variable {c : Crates} {computeRank : Matrix64 → ℕ} {checks : Bool} {s t : Client} {e : Message}
  {tr : List (Client × Message)}

/-- What a message leaves in the slot and the flag. -/
inductive Effect (c : Crates) (computeRank : Matrix64 → ℕ) (x : Client × Message) (t : Client) :
    Prop
  | accept (b : RpcBlock) (state : State) (haccepts : Accepts x b)
      (hnew : Outcome.ok state ∈ State.new c computeRank x.1.miner.currentStateId b)
      (hslot : t.miner.slot = x.1.miner.slot.swap (some state)) (hsynced : t.miner.isSynced = true)
  | reject (hrejects : Rejects x) (hsynced : t.miner.isSynced = false)
      (hslot : x.1.miner.isSynced = false ∧ t.miner.slot = x.1.miner.slot
        ∨ t.miner.slot = x.1.miner.slot.swap none)
  | keep (haccepts : ∀ b, ¬ Accepts x b) (hrejects : ¬ Rejects x)
      (hslot : t.miner.slot = x.1.miner.slot) (hsynced : t.miner.isSynced = x.1.miner.isSynced)

/-- The effect of a call of `process_block` with an accepted block. -/
theorem effect_of_accepts {b : RpcBlock} (haccepts : Accepts (s, e) b)
    (hblocks : ∃ state, Outcome.ok state ∈ State.new c computeRank s.miner.currentStateId b)
    (h : (e.result, t.miner) ∈ s.miner.processBlock c computeRank (some b)) :
    Effect c computeRank (s, e) t := by
  obtain ⟨state, hnew⟩ := hblocks
  obtain ⟨-, hminer⟩ := MinerManager.processBlock_some hnew h
  exact .accept b state haccepts hnew (by rw [hminer]) (by rw [hminer])

/-- The effect of a call of `process_block` without a block. -/
theorem effect_of_rejects (hrejects : Rejects (s, e))
    (h : (e.result, t.miner) ∈ s.miner.processBlock c computeRank none) :
    Effect c computeRank (s, e) t := by
  obtain ⟨-, hdown, hslot⟩ := MinerManager.processBlock_none h
  refine .reject hrejects hdown (hslot.imp_left fun ⟨hdown', hsame⟩ => ⟨hdown', ?_⟩)
  rw [hsame]

/-- What a message that is not a template leaves alone. -/
theorem effect_of_other (hother : ∀ template, e.payload ≠ .getBlockTemplateResponse template)
    (h : t.miner = s.miner) : Effect c computeRank (s, e) t :=
  .keep (fun _ ⟨template, hpayload, _⟩ => hother template hpayload)
    (fun ⟨template, hpayload, _⟩ => hother template hpayload) (by rw [h]) (by rw [h])

theorem step_cases (h : (machine c computeRank checks).step s e t)
    (hblocks : BlocksAccepted c computeRank (s, e)) : Effect c computeRank (s, e) t := by
  have hstep : (e.result, t.handler, t.miner)
    ∈ s.handler.handleMessage c computeRank checks e.channelOpen e.payload s.miner := h
  have hprocess : ∀ block, (e.result, t.handler, t.miner)
      ∈ (s.miner.processBlock c computeRank block).map (fun r => (r.1, s.handler, r.2)) →
      (e.result, t.miner) ∈ s.miner.processBlock c computeRank block := by
    intro block hmap
    obtain ⟨⟨r, m⟩, hr, heq⟩ := (Part.mem_map_iff _).mp hmap
    obtain ⟨rfl, hrest⟩ := Prod.mk.inj heq
    obtain ⟨-, rfl⟩ := Prod.mk.inj hrest
    exact hr
  cases hpayload : e.payload with
  | getBlockTemplateResponse template =>
    rw [hpayload] at hstep
    obtain ⟨block, isSynced, error⟩ := template
    have hnew := hblocks _ hpayload
    cases error with
    | some message =>
      -- an error changes nothing, with and without a block
      have hkept : t.miner = s.miner := by
        have : (e.result, t.handler, t.miner) = (.ok (), s.handler, s.miner) := by
          cases block <;> cases isSynced <;> exact Part.mem_some_iff.mp hstep
        exact congrArg (fun r => r.2.2) this
      refine .keep ?_ ?_ (by rw [hkept]) (by rw [hkept])
      · rintro b ⟨template, htemplate, -, herror, -⟩
        obtain rfl := Payload.getBlockTemplateResponse.inj (hpayload.symm.trans htemplate)
        cases herror
      · rintro ⟨template, htemplate, herror, -⟩
        obtain rfl := Payload.getBlockTemplateResponse.inj (hpayload.symm.trans htemplate)
        cases herror
    | none =>
      cases block with
      | some b =>
        cases isSynced with
        | true =>
          exact effect_of_accepts ⟨_, hpayload, rfl, rfl, Or.inl rfl⟩ (hnew b rfl)
            (hprocess _ hstep)
        | false =>
          simp only [VelkardHandler.handleMessage] at hstep
          split at hstep
          case isTrue hmine =>
            exact effect_of_accepts ⟨_, hpayload, rfl, rfl, Or.inr hmine⟩ (hnew b rfl)
              (hprocess _ hstep)
          case isFalse hmine =>
            refine effect_of_rejects ⟨_, hpayload, rfl, rfl, ?_⟩ (hprocess _ hstep)
            rintro b' ⟨template, htemplate, -, -, hor⟩
            obtain rfl := Payload.getBlockTemplateResponse.inj (hpayload.symm.trans htemplate)
            obtain hsynced | hsynced := hor
            · cases hsynced
            · exact hmine hsynced
      | none =>
        have hnone : ∀ b, ¬ Accepts (s, e) b := by
          rintro b ⟨template, htemplate, hblock, -⟩
          obtain rfl := Payload.getBlockTemplateResponse.inj (hpayload.symm.trans htemplate)
          cases hblock
        cases isSynced with
        | true =>
          have hkept : t.miner = s.miner :=
            congrArg (fun r : Outcome Error Unit × VelkardHandler × MinerManager => r.2.2)
              (Part.mem_some_iff.mp hstep)
          refine .keep hnone ?_ (by rw [hkept]) (by rw [hkept])
          rintro ⟨template, htemplate, -, hsynced, -⟩
          obtain rfl := Payload.getBlockTemplateResponse.inj (hpayload.symm.trans htemplate)
          cases hsynced
        | false =>
          exact effect_of_rejects ⟨_, hpayload, rfl, rfl, hnone⟩ (hprocess _ hstep)
  | newBlockTemplateNotification =>
    rw [hpayload, VelkardHandler.handleMessage] at hstep
    refine effect_of_other (by simp [hpayload]) ?_
    split at hstep <;> exact congrArg (fun r => r.2.2) (Part.mem_some_iff.mp hstep)
  | getBlockResponse error =>
    rw [hpayload] at hstep
    refine effect_of_other (by simp [hpayload]) ?_
    cases error <;> exact congrArg (fun r => r.2.2) (Part.mem_some_iff.mp hstep)
  | submitBlockResponse _ | getInfoResponse | notifyNewBlockTemplateResponse _ | other =>
    rw [hpayload] at hstep
    refine effect_of_other (by simp [hpayload]) ?_
    exact congrArg (fun r => r.2.2) (Part.mem_some_iff.mp hstep)

/-- The manager believes that it has emptied the slot only when it is empty. -/
theorem empty_of_unsynced (h : (machine c computeRank checks).Run tr s)
    (hblocks : ∀ x ∈ tr, BlocksAccepted c computeRank x) (hdown : s.miner.isSynced = false) :
    s.miner.slot.inner = none := by
  revert hblocks hdown
  refine Machine.Run.induction (P := fun tr s => (∀ x ∈ tr, BlocksAccepted c computeRank x) →
    s.miner.isSynced = false → s.miner.slot.inner = none) ?_ ?_ h
  · intro s hs _ hdown
    rw [show s.miner = MinerManager.new from hs] at hdown
    cases hdown
  · intro tr s e t _ ih hstep hblocks hdown
    have hbefore := ih fun x hx => hblocks x (List.mem_append_left _ hx)
    cases step_cases hstep (hblocks _ (by simp)) with
    | accept b state _ _ _ hsynced => simp [hsynced] at hdown
    | reject _ _ hslot =>
      obtain ⟨hdown', hsame⟩ | hswap := hslot
      · rw [hsame]
        exact hbefore hdown'
      · rw [hswap]
        rfl
    | keep _ _ hslot hsynced =>
      rw [hslot]
      exact hbefore (hsynced.symm.trans hdown)

/-- Messages that neither accept nor reject a template keep the slot. -/
theorem slot_kept (h : (machine c computeRank checks).Steps s tr t)
    (hblocks : ∀ x ∈ tr, BlocksAccepted c computeRank x)
    (hkeep : ∀ x ∈ tr, (∀ b, ¬ Accepts x b) ∧ ¬ Rejects x) : t.miner.slot = s.miner.slot := by
  refine h.invariant_of_mem (P := fun t => t.miner.slot = s.miner.slot) ?_ rfl
  intro u e v hmem hu hstep
  obtain ⟨haccepts, hrejects⟩ := hkeep _ hmem
  cases step_cases hstep (hblocks _ hmem) with
  | accept b state hb => exact absurd hb (haccepts b)
  | reject hr => exact absurd hr hrejects
  | keep _ _ hslot => rw [hslot, hu]

/-- Messages that do not accept a template keep an empty slot empty. -/
theorem slot_empty (h : (machine c computeRank checks).Steps s tr t)
    (hblocks : ∀ x ∈ tr, BlocksAccepted c computeRank x)
    (hnone : ∀ x ∈ tr, ∀ b, ¬ Accepts x b) (hempty : s.miner.slot.inner = none) :
    t.miner.slot.inner = none := by
  refine h.invariant_of_mem (P := fun t => t.miner.slot.inner = none) ?_ hempty
  intro u e v hmem hu hstep
  cases step_cases hstep (hblocks _ hmem) with
  | accept b state hb => exact absurd hb (hnone _ hmem b)
  | reject _ _ hslot =>
    obtain ⟨-, hsame⟩ | hswap := hslot
    · rw [hsame]
      exact hu
    · rw [hswap]
      rfl
  | keep _ _ hslot =>
    rw [hslot]
    exact hu

/-- After any messages the slot holds the state of the template accepted last, or nothing when
none has been accepted or a later one has been rejected; the flag is down only over an empty
slot; and errors, like synced answers without a block, change neither. -/
theorem slot_follows_templates (c : Crates) (computeRank : Matrix64 → ℕ) (checks : Bool)
    (tr : List (Client × Message)) (t : Client) (h : (machine c computeRank checks).Run tr t)
    (hblocks : ∀ x ∈ tr, BlocksAccepted c computeRank x) :
    (∀ pre x post b, tr = pre ++ x :: post → Accepts x b →
        (∀ y ∈ post, (∀ b', ¬ Accepts y b') ∧ ¬ Rejects y) →
      ∃ i, t.miner.slot.inner = some i
        ∧ Outcome.ok i.value ∈ State.new c computeRank x.1.miner.currentStateId b)
    ∧ (∀ pre x post, tr = pre ++ x :: post → Rejects x → (∀ y ∈ post, ∀ b, ¬ Accepts y b) →
      t.miner.slot.inner = none)
    ∧ ((∀ y ∈ tr, ∀ b, ¬ Accepts y b) → t.miner.slot.inner = none)
    ∧ (t.miner.isSynced = false → t.miner.slot.inner = none)
    ∧ ∀ pre s e post u template, tr = pre ++ (s, e) :: post →
      (machine c computeRank checks).step s e u → e.payload = .getBlockTemplateResponse template →
      template.error.isSome ∨ template.isSynced = true ∧ template.block = none →
        u.miner.slot = s.miner.slot ∧ u.miner.isSynced = s.miner.isSynced := by
  refine ⟨?_, ?_, ?_, empty_of_unsynced h hblocks, ?_⟩
  -- the last accepted template: nothing after it touches the slot
  · rintro pre ⟨s, e⟩ post b rfl haccepts hpost
    obtain ⟨hpre, u, hstep, hrest⟩ := h.split
    have hkept := slot_kept hrest (fun x hx => hblocks x (by simp [hx])) hpost
    cases step_cases hstep (hblocks _ (by simp)) with
    | accept b' state haccepts' hnew hslot =>
      obtain ⟨template, htemplate, hb, -⟩ := haccepts
      obtain ⟨template', htemplate', hb', -⟩ := haccepts'
      obtain rfl := Payload.getBlockTemplateResponse.inj (htemplate.symm.trans htemplate')
      obtain rfl : b = b' := Option.some.inj (hb.symm.trans hb')
      rw [hkept, hslot]
      exact ⟨_, rfl, hnew⟩
    | reject hrejects =>
      obtain ⟨-, -, -, -, hnone⟩ := hrejects
      exact absurd haccepts (hnone b)
    | keep hnone => exact absurd haccepts (hnone b)
  -- a rejection empties the slot, or finds it empty because the node was already out of sync
  · rintro pre ⟨s, e⟩ post rfl hrejects hpost
    obtain ⟨hpre, u, hstep, hrest⟩ := h.split
    refine slot_empty hrest (fun x hx => hblocks x (by simp [hx])) hpost ?_
    cases step_cases hstep (hblocks _ (by simp)) with
    | accept b state haccepts =>
      obtain ⟨-, -, -, -, hnone⟩ := hrejects
      exact absurd haccepts (hnone b)
    | reject _ _ hslot =>
      obtain ⟨hdown, hsame⟩ | hswap := hslot
      · rw [hsame]
        exact empty_of_unsynced hpre (fun x hx => hblocks x (by simp [hx])) hdown
      · rw [hswap]
        rfl
    | keep _ hnot => exact absurd hrejects hnot
  · intro hnone
    obtain ⟨s, hs, hsteps⟩ := h
    refine slot_empty hsteps hblocks hnone ?_
    rw [show s.miner = MinerManager.new from hs]
    rfl
  -- an error or a synced answer without a block neither accepts nor rejects
  · rintro pre s e post u template rfl hstep hpayload hquiet
    have hnot : (∀ b, ¬ Accepts (s, e) b) ∧ ¬ Rejects (s, e) := by
      constructor
      · rintro b ⟨template', htemplate', hb, herror, -⟩
        obtain rfl := Payload.getBlockTemplateResponse.inj (hpayload.symm.trans htemplate')
        simp [herror, hb] at hquiet
      · rintro ⟨template', htemplate', herror, hsynced, -⟩
        obtain rfl := Payload.getBlockTemplateResponse.inj (hpayload.symm.trans htemplate')
        simp [herror, hsynced] at hquiet
    cases step_cases hstep (hblocks _ (by simp)) with
    | accept b state hb => exact absurd hb (hnot.1 b)
    | reject hr => exact absurd hr hnot.2
    | keep _ _ hslot hsynced => exact ⟨hslot, hsynced⟩

/-! ### A sample connection -/

open State

/-- A template of the node, with the sample block. -/
def sampleTemplate (isSynced : Bool) : Message :=
  ⟨.getBlockTemplateResponse ⟨some (sampleBlock 0), isSynced, none⟩, true, .ok ()⟩

/-- A manager that has got the sample. -/
def sampleManager : MinerManager := ⟨true, 1, Solo.UNSOLVED, Slot.empty.swap (some sampleState)⟩

/-- The client before its first template. -/
def sampleStart : Client := ⟨.connect "miner".toList false none, .new⟩

/-- It mines the sample. -/
def sampleMining : Client := ⟨sampleStart.handler, sampleManager⟩

/-- The node is not synced any more. -/
def sampleIdle : Client :=
  ⟨sampleStart.handler, ⟨false, 1, Solo.UNSOLVED, sampleManager.slot.swap none⟩⟩

/-- A synced template and then an unsynced one, which the handler does not mine. -/
theorem sample_follows :
    ∃ tr t, (machine sampleCrates (fun _ => 64) true).Run tr t ∧ tr.length = 2
      ∧ (∃ x ∈ tr, Accepts x (sampleBlock 0)) ∧ t.miner.slot.inner = none := by
  have hnew : Outcome.ok sampleState ∈ State.new sampleCrates (fun _ => 64) 0 (sampleBlock 0) :=
    mem_new.mpr ⟨_, sampleState_builtFrom⟩
  have h1 : (machine sampleCrates (fun _ => 64) true).step sampleStart (sampleTemplate true)
      sampleMining :=
    (Part.mem_map_iff _).mpr ⟨_, (Part.mem_map_iff _).mpr ⟨_, hnew, rfl⟩, rfl⟩
  have h2 : (machine sampleCrates (fun _ => 64) true).step sampleMining (sampleTemplate false)
      sampleIdle :=
    (Part.mem_map_iff _).mpr ⟨(.ok (), sampleIdle.miner), Part.mem_some_iff.mpr rfl, rfl⟩
  have hrun : (machine sampleCrates (fun _ => 64) true).Run
      [(sampleStart, sampleTemplate true), (sampleMining, sampleTemplate false)] sampleIdle :=
    ⟨sampleStart, rfl, .cons h1 (.cons h2 .refl)⟩
  have hblocks : ∀ x ∈ [(sampleStart, sampleTemplate true), (sampleMining, sampleTemplate false)],
      BlocksAccepted sampleCrates (fun _ => 64) x := by
    intro x hx template htemplate b hb
    have hlater : ∃ state, Outcome.ok state
        ∈ State.new sampleCrates (fun _ => 64) 1 (sampleBlock 0) :=
      ⟨{ sampleState with id := 1 }, mem_new.mpr ⟨sampleHeader,
        { sampleState_builtFrom with id_eq := rfl }⟩⟩
    obtain rfl | rfl :
        x = (sampleStart, sampleTemplate true) ∨ x = (sampleMining, sampleTemplate false) := by
      simpa using hx
    · obtain rfl := Payload.getBlockTemplateResponse.inj htemplate
      obtain rfl := Option.some.inj hb
      exact ⟨_, hnew⟩
    · obtain rfl := Payload.getBlockTemplateResponse.inj htemplate
      obtain rfl := Option.some.inj hb
      exact hlater
  have haccepts : Accepts (sampleStart, sampleTemplate true) (sampleBlock 0) :=
    ⟨_, rfl, rfl, rfl, Or.inl rfl⟩
  refine ⟨_, sampleIdle, hrun, rfl, ⟨_, .head _, haccepts⟩, ?_⟩
  have hnot : ∀ b, ¬ Accepts (sampleMining, sampleTemplate false) b := by
    rintro b ⟨template, htemplate, -, -, hsynced | hmine⟩
    · obtain rfl := Payload.getBlockTemplateResponse.inj htemplate
      cases hsynced
    · cases hmine
  exact (slot_follows_templates sampleCrates (fun _ => 64) true _ sampleIdle hrun hblocks).2.1
    [(sampleStart, sampleTemplate true)] (sampleMining, sampleTemplate false) [] rfl
    ⟨_, rfl, rfl, rfl, hnot⟩ (by simp)

end Client
