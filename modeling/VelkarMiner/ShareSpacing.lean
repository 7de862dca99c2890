/-
The spacing of shares (`should_submit_share` and `submit_hit` of `src/miner.rs`).

The cell of a limiter is loaded, compared with the clock and exchanged in separate
steps.  An exchange succeeds only while the cell still holds what was loaded, and
every success raises the cell, so that it never comes back to an old value.

* `Ledger` — a cell that is only raised, with what it has been raised from and to;
* `spaced_of_ledger` — the values it has been raised to lie apart;
* `granted_before_submit` — a worker submits right after an exchange of its own;
* `submissions_spaced` — the limiters of both miners have such cells.
-/
import VelkarMiner.ShareLimiter

/-! ### A cell that is only raised -/

/-- The exchanges of a cell, each with the old and the new value, and the value it holds. -/
inductive Ledger : List (U64 × U64) → U64 → Prop
  | start : Ledger [] 0
  | grant {grants : List (U64 × U64)} {cell now : U64} (h : Ledger grants cell)
      (hdue : ¬ TooEarly now cell) : Ledger (grants ++ [(cell, now)]) now

/-- The recorded times are at least 250 ms apart, and none of them lets two submissions through. -/
structure Spaced (grants : List (U64 × U64)) : Prop where
  apart : (grants.map Prod.snd).IsChain fun a b => a.toNat + 250 ≤ b.toNat
  granted_once : (grants.map Prod.fst).Nodup

section

variable {grants : List (U64 × U64)} {cell now : U64}

theorem le_of_not_tooEarly {previous : U64} (h : ¬ TooEarly now previous) :
    previous.toNat + 250 ≤ now.toNat := by
  rw [TooEarly] at h
  omega

/-- No exchange has been above the cell. -/
theorem Ledger.le_cell (h : Ledger grants cell) :
    ∀ g ∈ grants, g.1.toNat + 250 ≤ g.2.toNat ∧ g.2.toNat ≤ cell.toNat := by
  induction h with
  | start => simp
  | grant h hdue ih =>
    have hraise := le_of_not_tooEarly hdue
    intro g hg
    obtain hg | hg := List.mem_append.mp hg
    · obtain ⟨hgap, hle⟩ := ih g hg
      exact ⟨hgap, by omega⟩
    · obtain rfl := List.mem_singleton.mp hg
      exact ⟨hraise, le_rfl⟩

/-- The last exchange has left the value that the cell holds. -/
theorem Ledger.getLast? (h : Ledger grants cell) :
    ∀ t ∈ (grants.map Prod.snd).getLast?, t = cell := by
  cases h with
  | start => simp
  | grant h hdue =>
    intro t ht
    simpa using ht.symm

theorem spaced_of_ledger (h : Ledger grants cell) : Spaced grants := by
  induction h with
  | start => exact ⟨List.isChain_nil, List.nodup_nil⟩
  | @grant grants cell now h hdue ih =>
    constructor
    · rw [List.map_append, List.isChain_append]
      refine ⟨ih.apart, List.isChain_singleton _, ?_⟩
      intro s hs t ht
      obtain rfl := h.getLast? s hs
      obtain rfl : now = t := by simpa using ht
      exact le_of_not_tooEarly hdue
    · rw [List.map_append, List.nodup_append]
      refine ⟨ih.granted_once, List.nodup_singleton _, ?_⟩
      intro previous hprevious t ht
      obtain ⟨g, hg, rfl⟩ := List.mem_map.mp hprevious
      obtain rfl : t = cell := by simpa using ht
      -- an earlier exchange has raised the cell above what it found there
      rintro rfl
      have := h.le_cell g hg
      omega

end

/-! ### The limiters -/

namespace StratumMiner

variable {ι : Type} [DecidableEq ι]

/-- What a successful exchange finds in the cell, and the reading of the clock it leaves there. -/
def granted (m : Miner ι) : Event ι → Option (U64 × U64)
  | .exchange w =>
    match (m.workers w).pc with
    | .exchange previous now _ =>
      if m.lastShareSubmitMs = previous then some (previous, now) else none
    | _ => none
  | _ => none

def grants (tr : List (Miner ι × Event ι)) : List (U64 × U64) :=
  tr.filterMap fun x => granted x.1 x.2

omit [DecidableEq ι] in
theorem grants_concat (tr : List (Miner ι × Event ι)) (m : Miner ι) (e : Event ι) :
    grants (tr ++ [(m, e)]) = grants tr ++ (granted m e).toList := by
  rw [grants, List.filterMap_append]
  cases h : granted m e <;> simp [grants, h]

/-- Who is about to exchange has found the clock far enough above what was loaded. -/
def DueAtExchange (m : Miner ι) : Prop :=
  ∀ w previous now rest, (m.workers w).pc = .exchange previous now rest → ¬ TooEarly now previous

/-- A step that brings a worker to an exchange has found the clock far enough; what brings it to
a submission is an exchange that succeeds. -/
theorem limiter_cases {cfg : Config ι} {m m' : Miner ι} {e : Event ι} {w : ι}
    (hstep : Step cfg m e m') (hw : e.worker = some w) :
    (∀ previous now rest, (m'.workers w).pc = .exchange previous now rest
        → ¬ TooEarly now previous)
      ∧ ∀ rest, (m'.workers w).pc = .submit rest →
        e = .exchange w ∧ ∃ g, granted m (.exchange w) = some g := by
  cases hstep with
  | job | close => cases hw
  | due w' now' rest' hpc hdue =>
    obtain rfl : w' = w := Option.some.inj hw
    refine ⟨?_, by simp⟩
    intro previous now rest hpc'
    obtain ⟨rfl, rfl, -⟩ : m.lastShareSubmitMs = previous ∧ now' = now ∧ rest' = rest := by
      simpa using hpc'
    exact hdue
  | exchanged w' previous now rest' hpc hcell =>
    obtain rfl : w' = w := Option.some.inj hw
    exact ⟨by simp, fun _ _ => ⟨rfl, (previous, now), by simp [granted, hpc, hcell]⟩⟩
  | begin w' | early w' | overtaken w' | submit w' =>
    obtain rfl : w' = w := Option.some.inj hw
    simp only [Miner.set_workers_self, resume]
    split <;> simp
  | wait w' hpc =>
    obtain rfl : w' = w := Option.some.inj hw
    simp [hpc]
  | _ w' =>
    obtain rfl : w' = w := Option.some.inj hw
    simp

theorem dueAtExchange_step {cfg : Config ι} {m m' : Miner ι} {e : Event ι} (hstep : Step cfg m e m')
    (h : DueAtExchange m) : DueAtExchange m' := by
  intro w previous now rest hpc
  by_cases hw : e.worker = some w
  · exact (limiter_cases hstep hw).1 previous now rest hpc
  · rw [Step.workers_eq hstep hw] at hpc
    exact h w previous now rest hpc

theorem ledger {cfg : Config ι} {tr : List (Miner ι × Event ι)} {m : Miner ι}
    (h : (machine cfg).Run tr m) : DueAtExchange m ∧ Ledger (grants tr) m.lastShareSubmitMs := by
  refine Machine.Run.induction
    (P := fun tr m => DueAtExchange m ∧ Ledger (grants tr) m.lastShareSubmitMs) ?_ ?_ h
  · intro m hm
    refine ⟨?_, by rw [hm.lastShareSubmitMs_eq]; exact .start⟩
    intro w previous now rest hpc
    rw [hm.worker_eq w] at hpc
    cases hpc
  · rintro tr m e m' - ⟨hdue, hledger⟩ hstep
    refine ⟨dueAtExchange_step hstep hdue, ?_⟩
    rw [grants_concat]
    have hkeep : granted m e = none → m'.lastShareSubmitMs = m.lastShareSubmitMs →
        Ledger (grants tr ++ (granted m e).toList) m'.lastShareSubmitMs := by
      intro hnone hsame
      rw [hnone, hsame]
      simpa using hledger
    cases hstep with
    | exchanged w previous now rest hpc hcell =>
      have hgranted : granted m (.exchange w) = some (m.lastShareSubmitMs, now) := by
        simp [granted, hpc, hcell]
      rw [hgranted]
      exact hledger.grant (hcell ▸ hdue w previous now rest hpc)
    | overtaken w previous now rest hpc hcell =>
      exact hkeep (by simp [granted, hpc, hcell]) rfl
    | _ => exact hkeep rfl rfl

/-- The last step of a worker before it submits is an exchange that succeeds. -/
theorem granted_before_submit {cfg : Config ι} {pre post : List (Miner ι × Event ι)}
    {m m' : Miner ι} {w : ι} {jobId nonce : Rust.Str}
    (h : (machine cfg).Run (pre ++ (m, .submit w jobId nonce) :: post) m') :
    ∃ before m₀ after g, pre = before ++ (m₀, .exchange w) :: after
      ∧ granted m₀ (.exchange w) = some g ∧ ∀ x ∈ after, x.2.worker ≠ some w := by
  obtain ⟨⟨m₀, hm₀, hsteps⟩, m₁, hstep, -⟩ := h.split
  obtain ⟨rest, hpc⟩ : ∃ rest, (m.workers w).pc = .submit rest := by
    cases hstep with
    | submit _ i _ rest hpc => exact ⟨rest, hpc⟩
  have hstart : ¬ ∃ rest, (m₀.workers w).pc = .submit rest := by
    rw [hm₀.worker_eq w]
    rintro ⟨rest, hpc⟩
    cases hpc
  have hcame : ∀ m e m', Step cfg m e m' → (∃ rest, (m'.workers w).pc = .submit rest) →
      (e = .exchange w ∧ ∃ g, granted m (.exchange w) = some g)
        ∨ (∃ rest, (m.workers w).pc = .submit rest) ∧ e.worker ≠ some w := by
    rintro m e m' hstep ⟨rest, hpc⟩
    by_cases hw : e.worker = some w
    · exact Or.inl ((limiter_cases hstep hw).2 rest hpc)
    · rw [Step.workers_eq hstep hw] at hpc
      exact Or.inr ⟨⟨rest, hpc⟩, hw⟩
  obtain ⟨before, m₂, e, after, rfl, ⟨rfl, g, hg⟩, hother⟩ :=
    hsteps.came_from hcame hstart ⟨rest, hpc⟩
  exact ⟨before, m₂, after, g, rfl, hg, hother⟩

end StratumMiner

namespace Devfund

/-- What the cell of a pool is raised from and to by a step. -/
def raised (pool : Pool) (s s' : Scheduler) : Option (U64 × U64) :=
  if s'.lastSubmit pool = s.lastSubmit pool then none
  else some (s.lastSubmit pool, s'.lastSubmit pool)

/-- The exchanges of the cell of a pool in a run that ends in a state. -/
def grants (pool : Pool) (tr : List (Scheduler × Event)) (s : Scheduler) : List (U64 × U64) :=
  (Machine.transitions tr s).filterMap fun x => raised pool x.1 x.2.2

theorem grants_concat (pool : Pool) (tr : List (Scheduler × Event)) (s s' : Scheduler) (e : Event) :
    grants pool (tr ++ [(s, e)]) s' = grants pool tr s ++ (raised pool s s').toList := by
  rw [grants, Machine.transitions_concat, List.filterMap_append]
  cases h : raised pool s s' <;> simp [grants, h]

/-- A step leaves the cell of a pool alone, or raises it far enough. -/
theorem raised_cases {cfg : Config} {s s' : Scheduler} {e : Event} (h : Step cfg s e s')
    (pool : Pool) :
    s'.lastSubmit pool = s.lastSubmit pool ∧ (∀ jobId nonce, e ≠ .submit pool jobId nonce)
      ∨ ¬ TooEarly (s'.lastSubmit pool) (s.lastSubmit pool) := by
  cases h with
  | hitSubmit pool' i hit rest pow now jobId hpc hstate hoffer hdue =>
    by_cases hpool : pool = pool'
    · subst hpool
      right
      simpa using hdue
    · left
      exact ⟨Function.update_of_ne hpool .., fun jobId nonce he =>
        hpool (Event.submit.inj he).1.symm⟩
  | hitFailed pool' i hit rest pow now hpc hstate hoffer hdue =>
    by_cases hpool : pool = pool'
    · subst hpool
      right
      simpa using hdue
    · left
      exact ⟨Function.update_of_ne hpool .., fun _ _ => nofun⟩
  | _ => exact Or.inl ⟨rfl, fun _ _ => nofun⟩

theorem ledger {cfg : Config} {tr : List (Scheduler × Event)} {s : Scheduler}
    (h : (machine cfg).Run tr s) (pool : Pool) : Ledger (grants pool tr s) (s.lastSubmit pool) := by
  refine Machine.Run.induction (P := fun tr s => Ledger (grants pool tr s) (s.lastSubmit pool))
    ?_ ?_ h
  · intro s hs
    rw [hs.lastSubmit_eq]
    exact .start
  · intro tr s e s' _ ih hstep
    rw [grants_concat, raised]
    obtain ⟨hsame, -⟩ | hdue := raised_cases hstep pool
    · rw [hsame, if_pos rfl]
      simpa using ih
    · have hraise := le_of_not_tooEarly hdue
      rw [if_neg fun heq => by rw [heq] at hraise; omega]
      exact ih.grant hdue

theorem submit_raises {cfg : Config} {s s' : Scheduler} {pool : Pool} {jobId nonce : Rust.Str}
    (h : Step cfg s (.submit pool jobId nonce) s') :
    raised pool s s' = some (s.lastSubmit pool, s'.lastSubmit pool) := by
  obtain ⟨-, hne⟩ | hdue := raised_cases h pool
  · exact absurd rfl (hne jobId nonce)
  · have hraise := le_of_not_tooEarly hdue
    exact if_neg fun heq => by rw [heq] at hraise; omega

end Devfund

/-- Whatever the interleaving and the clocks, the times that the limiters record lie at least
250 ms apart, and no recorded time lets two submissions through: a worker submits right after an
exchange of its own.  Both cells of the scheduler for two pools have a record of their own, which
every share of their pool enters. -/
theorem submissions_spaced {ι : Type} [DecidableEq ι] (cfg : Config ι) (cfg' : Devfund.Config) :
    (∀ tr m, (StratumMiner.machine cfg).Run tr m → Spaced (StratumMiner.grants tr))
      ∧ (∀ pre m w jobId nonce post m',
        (StratumMiner.machine cfg).Run (pre ++ (m, .submit w jobId nonce) :: post) m' →
        ∃ before m₀ after g, pre = before ++ (m₀, .exchange w) :: after
          ∧ StratumMiner.granted m₀ (.exchange w) = some g ∧ ∀ x ∈ after, x.2.worker ≠ some w)
      ∧ (∀ tr s pool, (Devfund.machine cfg').Run tr s → Spaced (Devfund.grants pool tr s))
      ∧ ∀ s s' pool jobId nonce, Devfund.Step cfg' s (.submit pool jobId nonce) s' →
        Devfund.raised pool s s' = some (s.lastSubmit pool, s'.lastSubmit pool) := by
  refine ⟨?_, ?_, ?_, ?_⟩
  · intro tr m h
    exact spaced_of_ledger (StratumMiner.ledger h).2
  · intro pre m w jobId nonce post m' h
    exact StratumMiner.granted_before_submit h
  · intro tr s pool h
    exact spaced_of_ledger (Devfund.ledger h pool)
  · intro s s' pool jobId nonce h
    exact Devfund.submit_raises h

namespace StratumMiner

/-- Both workers find a nonce of the first job; they exchange at 1000 and at 1250 ms, and submit in
the other order. -/
theorem pair_apart_run :
    ∃ pre m post m', (machine pairConfig).Run
        (pre ++ (m, .submit 0 "1".toList "0000000000000002".toList) :: post) m'
      ∧ grants (pre ++ (m, .submit 0 "1".toList "0000000000000002".toList) :: post)
        = [(0, 1000), (1000, 1250)] := by
  have h₁ := Machine.Steps.step (M := machine pairConfig) .refl
    (Step.job pairMiner sampleStratumJob _ sampleStratumJob_mem)
  have h₂ := h₁.step (Step.wait _ 0 rfl rfl (by decide))
  have h₃ := h₂.step (Step.begin _ 0 sampleInstance rfl rfl)
  have h₄ := h₃.step (Step.hashOffered _ 0 sampleInstance 2 State.samplePow rfl rfl rfl
    (applyExtranonce_of_sample (Or.inl rfl)) (cpuOffer_of_sample (Or.inl rfl)))
  have h₅ := h₄.step (Step.wait _ 1 rfl rfl (by decide))
  have h₆ := h₅.step (Step.begin _ 1 sampleInstance rfl rfl)
  have h₇ := h₆.step (Step.hashOffered _ 1 sampleInstance 2 State.samplePow rfl rfl rfl
    (applyExtranonce_of_sample (Or.inl rfl)) (cpuOffer_of_sample (Or.inl rfl)))
  have h₈ := h₇.step (Step.due _ 0 1000 [] rfl (by decide))
  have h₉ := h₈.step (Step.exchanged _ 0 _ 1000 [] rfl rfl)
  have h₁₀ := h₉.step (Step.due _ 1 1250 [] rfl (by decide))
  have h₁₁ := h₁₀.step (Step.exchanged _ 1 _ 1250 [] rfl rfl)
  have h₁₂ := h₁₁.step (Step.submit _ 1 (sampleInstance.withNonce 2) "1".toList [] rfl rfl rfl rfl)
  have h₁₃ := h₁₂.step (Step.submit _ 0 (sampleInstance.withNonce 2) "1".toList [] rfl rfl rfl rfl)
  exact ⟨_, _, [], _, ⟨pairMiner, ⟨rfl, rfl, rfl, rfl, fun _ => rfl⟩, h₁₃⟩, rfl⟩

end StratumMiner

/-- Two workers exchange 250 ms apart, and submit in the other order. -/
theorem two_shares_spaced :
    ∃ pre m post m', (StratumMiner.machine StratumMiner.pairConfig).Run
        (pre ++ (m, .submit 0 "1".toList "0000000000000002".toList) :: post) m'
      ∧ StratumMiner.grants (pre ++ (m, .submit 0 "1".toList "0000000000000002".toList) :: post)
        = [(0, 1000), (1000, 1250)]
      ∧ Spaced [(0, 1000), (1000, 1250)]
      ∧ (∃ before m₀ after g, pre = before ++ (m₀, .exchange 0) :: after
        ∧ StratumMiner.granted m₀ (.exchange 0) = some g ∧ ∀ x ∈ after, x.2.worker ≠ some 0)
      ∧ ∃ tr s s', (Devfund.machine Devfund.sampleConfig).Run tr s
        ∧ Spaced (Devfund.grants .main tr s)
        ∧ Devfund.raised .main s s' = some (s.lastSubmit .main, s'.lastSubmit .main) := by
  obtain ⟨hspaced, hown, hspaced', hraised⟩ :=
    submissions_spaced StratumMiner.pairConfig Devfund.sampleConfig
  obtain ⟨pre, m, post, m', hrun, hgrants⟩ := StratumMiner.pair_apart_run
  obtain ⟨tr, s, s', hrun', hstep⟩ := Devfund.sample_run
  exact ⟨pre, m, post, m', hrun, hgrants, hgrants ▸ hspaced _ _ hrun,
    hown pre m 0 _ _ post m' hrun, tr, s, s', hrun', hspaced' tr s .main hrun',
    hraised s s' .main _ _ hstep⟩
