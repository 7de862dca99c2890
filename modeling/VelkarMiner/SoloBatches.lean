/-
The hits of a device in solo mining (`MinerManager::launch_cpu_miner` of `src/miner.rs`).

After a batch the worker looks at the first hit only: when that one fails the check, the
others are dropped, whatever they are worth.

* `templated_run` — every state that a worker can hold belongs to a template;
* `step_at_finish` — what the worker makes of the hits of a batch;
* `batch_calls_found_block_iff` — when a batch with a block in it leads to `found_block`.
-/
import VelkarMiner.Staleness

open Rust

namespace Solo

variable {ι : Type}

/-- The proof of work of a nonce meets the block target. -/
def MeetsTarget (cfg : Config ι) (i : Instance State) (nonce : U64) : Prop :=
  ({ i.value with nonce := nonce } : State).calculatePow cfg.crates ≤ i.value.blockTarget

section

variable {cfg : Config ι} {i : Instance State} {nonce : U64} {template : RpcBlock}
  {header : RpcBlockHeader}

theorem powMatch_eq_block_iff :
    (i.withNonce nonce).value.powMatch cfg.crates = .block ↔ MeetsTarget cfg i nonce := by
  rw [State.powMatch, MeetsTarget]
  dsimp only
  split
  case isTrue h => exact iff_of_true rfl h
  case isFalse h =>
    refine iff_of_false ?_ h
    split <;> simp

theorem tryNonce_of_not_meets (h : ¬ MeetsTarget cfg i nonce) :
    tryNonce cfg i nonce = .ok none := by
  rw [tryNonce, State.generateBlockIfPow, if_neg (powMatch_eq_block_iff.not.mpr h)]
  rfl

/-- The block of a nonce that solves a template. -/
theorem tryNonce_of_meets (hblock : i.value.block = some template)
    (hheader : template.header = some header) (h : MeetsTarget cfg i nonce) :
    tryNonce cfg i nonce
      = .ok (some { template with header := some { header with nonce := nonce } }) := by
  rw [tryNonce, State.generateBlockIfPow, if_pos (powMatch_eq_block_iff.mpr h)]
  simp [hblock, hheader]

end

/-! ### Every state belongs to a template -/

/-- The states of a miner hold the template they were made of. -/
structure Templated (m : Miner ι) : Prop where
  slot : ∀ i ∈ m.slot.inner, i.value.block.isSome
  listener : ∀ s, m.listener = .store (some s) ∨ m.listener = .swap (some s) → s.block.isSome
  workers : ∀ w, ∀ i ∈ (m.workers w).state, i.value.block.isSome

variable [DecidableEq ι] {cfg : Config ι} {m m' : Miner ι} {tr : List (Miner ι × Event ι)} {w : ι}
  {i : Instance State}

theorem Templated.set (h : Templated m) {x : Worker} (hx : ∀ i ∈ x.state, i.value.block.isSome) :
    Templated (m.set w x) where
  slot := h.slot
  listener := h.listener
  workers := by
    intro w' i hi
    by_cases hw : w' = w
    · subst hw
      rw [Miner.set_workers_self] at hi
      exact hx i hi
    · have hother : (m.set w x).workers w' = m.workers w' := Function.update_of_ne hw ..
      rw [hother] at hi
      exact h.workers w' i hi

theorem Templated.step {e : Event ι} (h : Templated m) (hstep : Step cfg m e m') :
    Templated m' := by
  cases hstep with
  -- what `State::new` builds has the block of its template
  | template block state hidle hnew =>
    refine ⟨h.slot, ?_, h.workers⟩
    rintro s (hs | hs)
    · obtain rfl : state = s := by simpa using hs
      obtain ⟨header, hbuilt⟩ := State.mem_new.mp hnew
      rw [hbuilt.block_eq]
      rfl
    · cases hs
  | malformed block e hidle hnew => exact ⟨h.slot, h.listener, h.workers⟩
  | unsynced hidle hsynced => exact ⟨h.slot, by simp, h.workers⟩
  -- the state moves from the listener to the slot, and from there to the workers
  | store state hl =>
    refine ⟨h.slot, ?_, h.workers⟩
    rintro s (hs | hs)
    · cases hs
    · obtain rfl : state = some s := by simpa using hs
      exact h.listener s (Or.inl hl)
  | swap state hl =>
    refine ⟨?_, by simp, h.workers⟩
    intro i hi
    cases state with
    | none => cases hi
    | some s =>
      obtain rfl : _ = i := Option.some.inj hi
      exact h.listener s (Or.inr hl)
  | close => exact ⟨h.slot, h.listener, h.workers⟩
  | topWait w | wait w => exact h.set h.slot
  | poll w =>
    refine h.set ?_
    intro i hi
    dsimp only at hi
    split at hi
    · exact h.slot i hi
    · exact h.workers w i hi
  -- only the nonce of the state changes
  | finishMiss w i hit rest hgpu hpc hstate | finishFound w i hit rest block hgpu hpc hstate
  | hashFound w i block hgpu hpc hstate | hashMiss w i hgpu hpc hstate
  | hashLast w i hgpu hpc hstate =>
    refine h.set ?_
    intro j hj
    obtain rfl := Option.some.inj hj
    exact h.workers w i hstate
  -- `found` also records the id of the state as solved
  | foundTaken w i block =>
    have hset : Templated { m with solvedStateId := i.value.id } := ⟨h.slot, h.listener, h.workers⟩
    exact hset.set (h.workers w)
  | foundLate w | submit w => exact h.set (by simp)
  | _ w => exact h.set (h.workers w)

theorem templated_run (h : (machine cfg).Run tr m) : Templated m := by
  refine Machine.Run.invariant (P := Templated) ?_ (fun _ _ _ h hstep => h.step hstep) h
  intro m hm
  refine ⟨by simp [hm.slot_eq, Slot.empty], by simp [hm.listener_eq], ?_⟩
  intro w i hi
  rw [hm.worker_eq w] at hi
  cases hi

/-! ### The worker after a batch -/

/-- Of the hits of a batch the worker takes the first, if any, and looks whether it solves the
template. -/
theorem step_at_finish {e : Event ι} {hits : List GpuHit} {template : RpcBlock}
    {header : RpcBlockHeader} (h : Step cfg m e m') (hw : e.worker = some w)
    (hpc : (m.workers w).pc = .finish hits) (hstate : (m.workers w).state = some i)
    (hblock : i.value.block = some template) (hheader : template.header = some header) :
    (m'.workers w).state.isSome
      ∧ ((∃ hit ∈ hits.head?, MeetsTarget cfg i hit.nonce
          ∧ (m'.workers w).pc
            = .found { template with header := some { header with nonce := hit.nonce } })
        ∨ (∀ hit ∈ hits.head?, ¬ MeetsTarget cfg i hit.nonce) ∧ (m'.workers w).pc = .top) := by
  cases h with
  | finishEmpty w' hgpu hpc' =>
    obtain rfl : w' = w := Option.some.inj hw
    obtain rfl : [] = hits := by simpa [hpc'] using hpc
    exact ⟨by simp [hstate], Or.inr ⟨by simp, by simp⟩⟩
  | finishMiss w' i' hit rest hgpu hpc' hstate' hmiss =>
    obtain rfl : w' = w := Option.some.inj hw
    obtain rfl : hit :: rest = hits := by simpa [hpc'] using hpc
    obtain rfl : i' = i := Option.some.inj (hstate'.symm.trans hstate)
    refine ⟨by simp, Or.inr ⟨?_, by simp⟩⟩
    rintro hit' ⟨⟩ hmeets
    rw [tryNonce_of_meets hblock hheader hmeets] at hmiss
    cases hmiss
  | finishFound w' i' hit rest block hgpu hpc' hstate' hfound =>
    obtain rfl : w' = w := Option.some.inj hw
    obtain rfl : hit :: rest = hits := by simpa [hpc'] using hpc
    obtain rfl : i' = i := Option.some.inj (hstate'.symm.trans hstate)
    have hmeets : MeetsTarget cfg i' hit.nonce := by
      by_contra hnot
      rw [tryNonce_of_not_meets hnot] at hfound
      cases hfound
    rw [tryNonce_of_meets hblock hheader hmeets] at hfound
    obtain rfl : _ = block := Option.some.inj (Outcome.ok.inj hfound)
    exact ⟨by simp, Or.inl ⟨hit, rfl, hmeets, by simp⟩⟩
  | template | malformed | unsynced | store | swap | close => cases hw
  | _ w' =>
    -- other steps start elsewhere
    obtain rfl : w' = w := Option.some.inj hw
    simp_all

theorem step_at_found {e : Event ι} {block : RpcBlock} (h : Step cfg m e m')
    (hw : e.worker = some w) (hpc : (m.workers w).pc = .found block) :
    ∃ j taken, e = .found w j block taken := by
  cases h with
  | foundTaken w' j block' hpc' | foundLate w' j block' hpc' =>
    obtain rfl : w' = w := Option.some.inj hw
    obtain rfl : block' = block := by simpa [hpc'] using hpc
    exact ⟨j, _, rfl⟩
  | template | malformed | unsynced | store | swap | close => cases hw
  | _ w' =>
    obtain rfl : w' = w := Option.some.inj hw
    simp_all

theorem step_at_top {e : Event ι} (h : Step cfg m e m') (hpc : (m.workers w).pc = .top)
    (j : Instance State) (block : RpcBlock) (taken : Bool) : e ≠ .found w j block taken := by
  rintro rfl
  cases h with
  | foundTaken _ _ _ hpc' | foundLate _ _ _ hpc' => simp [hpc'] at hpc

/-- A worker with a state and hits, with a block, or at the head of its loop can go on. -/
theorem can_step (hm : Templated m) (hgpu : cfg.gpu w = true)
    (hstate : (m.workers w).state = some i)
    (hpc : (∃ hits, (m.workers w).pc = .finish hits) ∨ (∃ block, (m.workers w).pc = .found block)
      ∨ (m.workers w).pc = .top) : ∃ e m', Step cfg m e m' ∧ e.worker = some w := by
  obtain ⟨hits, hpc⟩ | ⟨block, hpc⟩ | hpc := hpc
  · obtain ⟨template, hblock⟩ := Option.isSome_iff_exists.mp (hm.workers w i hstate)
    obtain ⟨header, hheader⟩ :=
      Option.isSome_iff_exists.mp (i.value.block_header template hblock)
    cases hits with
    | nil => exact ⟨_, _, .finishEmpty m w hgpu hpc, rfl⟩
    | cons hit rest =>
      by_cases hmeets : MeetsTarget cfg i hit.nonce
      · exact ⟨_, _, .finishFound m w i hit rest _ hgpu hpc hstate
          (tryNonce_of_meets hblock hheader hmeets), rfl⟩
      · exact ⟨_, _, .finishMiss m w i hit rest hgpu hpc hstate (tryNonce_of_not_meets hmeets),
          rfl⟩
  · by_cases hcell : m.solvedStateId = UNSOLVED
    · exact ⟨_, _, .foundTaken m w i block hpc hstate hcell, rfl⟩
    · exact ⟨_, _, .foundLate m w i block hpc hstate hcell, rfl⟩
  · exact ⟨_, _, .topState m w i hpc hstate, rfl⟩

/-! ### Blocks in a batch -/

/-- The second of a worker's steps is a call of `found_block`, with a block whose nonce is one of
the hits and solves the template. -/
def CallsFoundBlock (cfg : Config ι) (w : ι) (i : Instance State) (hits : List GpuHit)
    (own : List (Miner ι × Event ι)) : Prop :=
  ∃ x m j block taken rest header, own = x :: (m, .found w j block taken) :: rest
    ∧ block.header = some header ∧ (∃ hit ∈ hits, hit.nonce = header.nonce)
    ∧ MeetsTarget cfg i header.nonce

/-- The worker goes on after a batch until it has looked at the hits, and a batch that contains
a block leads to `found_block` precisely when the first hit is one. -/
theorem batch_calls_found_block_iff (cfg : Config ι) (pre post : List (Miner ι × Event ι))
    (m m' : Miner ι) (w : ι) (i : Instance State) (hits : List GpuHit)
    (h : (machine cfg).Run (pre ++ (m, .batch w i hits) :: post) m') :
    ((ownSteps w post).length < 2 → ∃ e m'', Step cfg m' e m'' ∧ e.worker = some w)
      ∧ (2 ≤ (ownSteps w post).length →
        (((∃ hit ∈ hits, MeetsTarget cfg i hit.nonce) →
          CallsFoundBlock cfg w i hits (ownSteps w post))
          ↔ ((∃ hit ∈ hits, MeetsTarget cfg i hit.nonce) →
            ∃ hit ∈ hits.head?, MeetsTarget cfg i hit.nonce))) := by
  have hend := templated_run h
  obtain ⟨hpre, m₁, hstep, hpost⟩ := h.split
  have hm := templated_run hpre
  obtain ⟨hgpu, hstate, hm₁⟩ : cfg.gpu w = true ∧ (m.workers w).state = some i
      ∧ m₁ = m.set w { m.workers w with
        pc := .finish hits, nonce := (m.workers w).nonce + cfg.batchSize } := by
    cases hstep with
    | batch _ _ _ hgpu hpc hstate => exact ⟨hgpu, hstate, rfl⟩
  have hpc₁ : (m₁.workers w).pc = .finish hits := by simp [hm₁]
  have hstate₁ : (m₁.workers w).state = some i := by simp [hm₁, hstate]
  obtain ⟨template, hblock⟩ := Option.isSome_iff_exists.mp (hm.workers w i hstate)
  obtain ⟨header, hheader⟩ := Option.isSome_iff_exists.mp (i.value.block_header template hblock)
  -- the first own step after the batch looks at the first hit, and at no other
  obtain ⟨hown, hsame⟩ | ⟨m₂, e₂, m₃, rest, hown, hw₂, hsame₂, hstep₂, hrest⟩ :=
    ownSteps_cases (w := w) hpost
  · rw [← hsame] at hpc₁ hstate₁
    rw [hown]
    exact ⟨fun _ => can_step hend hgpu hstate₁ (Or.inl ⟨hits, hpc₁⟩), by simp⟩
  rw [← hsame₂] at hpc₁ hstate₁
  obtain ⟨hsome, hlook⟩ := step_at_finish hstep₂ hw₂ hpc₁ hstate₁ hblock hheader
  obtain ⟨i₃, hstate₃⟩ := Option.isSome_iff_exists.mp hsome
  rw [hown, List.length_cons]
  -- the second sends the block, or goes back to the top of the loop
  obtain ⟨hown', hsame⟩ | ⟨m₄, e₄, m₅, rest', hown', hw₄, hsame₄, hstep₄, -⟩ :=
    ownSteps_cases (w := w) hrest
  · rw [← hsame] at hlook hstate₃
    rw [hown']
    refine ⟨fun _ => can_step hend hgpu hstate₃ (Or.inr ?_), by simp⟩
    exact hlook.imp (fun ⟨hit, _, _, hpc⟩ => ⟨_, hpc⟩) (fun ⟨_, hpc⟩ => hpc)
  rw [← hsame₄] at hlook
  rw [hown']
  refine ⟨by simp, fun _ => imp_congr_right fun _ => ?_⟩
  obtain ⟨hit, hhit, hmeets, hpc⟩ | ⟨hnot, hpc⟩ := hlook
  · obtain ⟨j, taken, rfl⟩ := step_at_found hstep₄ hw₄ hpc
    refine iff_of_true ?_ ⟨hit, hhit, hmeets⟩
    exact ⟨_, m₄, j, _, taken, _, _, rfl, rfl, ⟨hit, List.mem_of_mem_head? hhit, rfl⟩, hmeets⟩
  · refine iff_of_false ?_ ?_
    · rintro ⟨x, m₆, j, block, taken, rest₆, header', heq, -⟩
      obtain ⟨-, ⟨-, rfl⟩, -⟩ : (m₂, e₂) = x ∧ (m₄ = m₆ ∧ e₄ = .found w j block taken)
          ∧ ownSteps w rest' = rest₆ := by simpa using heq
      exact step_at_top hstep₄ hpc j block taken rfl
    · rintro ⟨hit, hhit, hmeets⟩
      exact hnot hit hhit hmeets

/-! ### Two hits -/

open State

/-- The outputs of Keccak-f[1600], BLAKE2b and Argon2id also for the nonce 1 of the sample, which
misses the target. -/
def batchCrates : Crates where
  f1600 := fun state =>
    if state.get 9 = 3343109343542796273 then
      #v[9985059240222735045, 17467301439273669601, 5981065083784380697, 14444619275496934209,
      1337126973457682268, 17194357743635042125, 14039782233792146908, 13627003184383785377,
      3583110807410056682, 2591412816954237752, 4211710223111476121, 17607754449496887902,
      12888957872117056391, 12571083741080608242, 3273674063276873975, 16843923088327836245,
      15387528942168825969, 11375768713499685713, 9108582511061978436, 9052374128267313440,
      11300631947038132968, 4136918453977311145, 2013651914264005247, 10193608118792851733,
      10862078299932281122]
    else if state.get 0 = 9396303265445158398 then
      #v[13568645426722922128, 11817869290249762294, 7458825999009267051, 9793486671601283299,
      15755862088119730171, 7172935310709522024, 10585097044184010626, 4342054900538857742,
      3367506099461197466, 6096605349918907356, 10641781913393597979, 6370821920459003135,
      1170572422840136491, 4105594860365634625, 11734126983108451046, 941199591582570992,
      6923971070263385163, 7730612785973698839, 10715860552673053349, 14327633918922440049,
      8561009097474867082, 7559907145304399839, 15923751355250016223, 1954404611551596810,
      4940588158567314247]
    else if state.get 0 = 9699292838263053209 then
      #v[4636659285511191021, 14070314497250987232, 18373901505652882012, 12086458223686658998,
      12238954301087372893, 1576781996650338242, 12023246934604718951, 14030363278361972282,
      14811747393603823946, 8543122814768446384, 16838255592943526059, 13742264744557912493,
      8967045011853887871, 16975039658134346902, 16000589450642619498, 12165378847386490395,
      5171909481486448786, 6352830405399754701, 10423545904627395035, 9003345465500911928,
      2542172887881231599, 18174387806992277034, 13895329826476980876, 9236729906895388270,
      6556718958159336983]
    else sampleCrates.f1600 state
  blake2b := fun n key data =>
    if h : n = 32 ∧ key = FINAL_KEY ∧ data.head? = some 227 then
      h.1 ▸ #v[182, 104, 177, 33, 66, 50, 58, 254, 38, 53, 255, 30, 142, 33, 79, 191, 137, 199, 59,
      221, 134, 251, 103, 215, 173, 26, 1, 20, 53, 180, 36, 189]
    else sampleCrates.blake2b n key data
  argon2id := fun m t p password salt =>
    if salt.head? = some 153 then
      #v[227, 185, 163, 185, 205, 89, 250, 17, 69, 154, 34, 48, 123, 152, 100, 43, 195, 219,
      142, 20, 165, 118, 238, 101, 186, 199, 179, 100, 71, 127, 43, 251]
    else sampleCrates.argon2id m t p password salt

theorem powOf_batch :
    powOf batchCrates (PowHasher.new sampleHash 7) (Matrix64.draw sampleHash 0) 1
        (u256FromCompactTarget 0x207fffff)
      = ⟨#v[16341758922358160786, 115864053629443984, 12248932791433488886, 15189613102144841160]⟩
    ∧ powOf batchCrates (PowHasher.new sampleHash 7) (Matrix64.draw sampleHash 0) 2
        (u256FromCompactTarget 0x207fffff) = samplePow := by
  decide +kernel

/-- One worker with a device, on the sample. -/
def batchConfig : Config Unit := ⟨batchCrates, fun _ => 64, fun _ => true, 2⟩

theorem sampleState_builtFrom_batch :
    BuiltFrom sampleState batchCrates (fun _ => 64) 0 (sampleBlock 0) sampleHeader :=
  { sampleState_builtFrom with
    hash_eq := by
      show headerHash batchCrates sampleHeader = .ok sampleHash
      decide +kernel }

theorem not_meetsTarget_one : ¬ MeetsTarget batchConfig ⟨0, sampleState⟩ 1 := by
  rw [MeetsTarget]
  show ¬ powOf batchCrates (PowHasher.new sampleHash 7) (Matrix64.draw sampleHash 0) 1
    (u256FromCompactTarget 0x207fffff) ≤ u256FromCompactTarget 0x207fffff
  rw [powOf_batch.1]
  decide

theorem meetsTarget_two : MeetsTarget batchConfig ⟨0, sampleState⟩ 2 := by
  rw [MeetsTarget]
  show powOf batchCrates (PowHasher.new sampleHash 7) (Matrix64.draw sampleHash 0) 2
    (u256FromCompactTarget 0x207fffff) ≤ u256FromCompactTarget 0x207fffff
  rw [powOf_batch.2]
  decide

/-- The worker has the sample and is about to run a batch. -/
def batchStart : Miner Unit := (stuckStart.deliver sampleState).fetch () ⟨0, sampleState⟩

theorem batchStart_run : ∃ tr, (machine batchConfig).Run tr batchStart := by
  obtain ⟨tr₁, s₁, h₁, -⟩ := deliver_steps batchConfig (m := stuckStart) rfl
    (mem_new.mpr ⟨_, sampleState_builtFrom_batch⟩)
  obtain ⟨tr₂, h₂, -⟩ := fetch_steps batchConfig (m := stuckStart.deliver sampleState)
    (w := ()) (i := ⟨0, sampleState⟩) rfl rfl rfl (by decide) (by decide)
  exact ⟨_, stuckStart, ⟨rfl, rfl, rfl, rfl, rfl, rfl, fun _ => rfl⟩, h₁.append h₂⟩

/-- A block as the first hit of two is found. -/
theorem first_block_found :
    ∃ pre m post m', (machine batchConfig).Run
        (pre ++ (m, .batch () ⟨0, sampleState⟩ [⟨2, samplePow⟩, ⟨1, samplePow⟩]) :: post) m'
      ∧ CallsFoundBlock batchConfig () ⟨0, sampleState⟩ [⟨2, samplePow⟩, ⟨1, samplePow⟩]
          (ownSteps () post) := by
  obtain ⟨pre, hpre⟩ := batchStart_run
  have hblock : (⟨0, sampleState⟩ : Instance State).value.block = some (sampleBlock 0) := rfl
  have hfound := tryNonce_of_meets hblock rfl meetsTarget_two
  have hsteps := Machine.Steps.cons (M := machine batchConfig)
    (Step.batch batchStart () ⟨0, sampleState⟩ [⟨2, samplePow⟩, ⟨1, samplePow⟩] rfl rfl rfl)
    (.cons (Step.finishFound _ () ⟨0, sampleState⟩ ⟨2, samplePow⟩ [⟨1, samplePow⟩] _ rfl rfl rfl
      hfound) (.cons (Step.foundTaken _ () _ _ rfl rfl rfl) .refl))
  have hrun := hpre.append hsteps
  exact ⟨_, _, _, _, hrun, ((batch_calls_found_block_iff batchConfig _ _ _ _ () _ _ hrun).2
    (by decide)).mpr (fun _ => ⟨_, rfl, meetsTarget_two⟩) ⟨_, .head _, meetsTarget_two⟩⟩

/-- A block behind a hit that misses the target is dropped. -/
theorem second_block_dropped :
    ¬ ∀ (cfg : Config Unit) pre m w i hits post m',
      (machine cfg).Run (pre ++ (m, .batch w i hits) :: post) m' → 2 ≤ (ownSteps w post).length →
        (∃ hit ∈ hits, MeetsTarget cfg i hit.nonce) →
          CallsFoundBlock cfg w i hits (ownSteps w post) := by
  intro hcalls
  obtain ⟨pre, hpre⟩ := batchStart_run
  have hsteps := Machine.Steps.cons (M := machine batchConfig)
    (Step.batch batchStart () ⟨0, sampleState⟩ [⟨1, samplePow⟩, ⟨2, samplePow⟩] rfl rfl rfl)
    (.cons (Step.finishMiss _ () ⟨0, sampleState⟩ ⟨1, samplePow⟩ [⟨2, samplePow⟩] rfl rfl rfl
      (tryNonce_of_not_meets not_meetsTarget_one)) (.cons (Step.topState _ () _ rfl rfl) .refl))
  obtain ⟨x, m, j, block, taken, rest, header, hown, -⟩ :=
    hcalls batchConfig _ _ _ _ _ _ _ (hpre.append hsteps) (by decide)
      ⟨_, .tail _ (.head _), meetsTarget_two⟩
  obtain ⟨-, hsecond⟩ := List.cons.inj hown
  cases hsecond

end Solo
