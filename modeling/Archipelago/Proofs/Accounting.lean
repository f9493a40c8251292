import Archipelago.Proofs.Positions

namespace Archipelago.Proofs.Accounting

open Actions
open Annealing
open Positions
open Runs
open Selection
open SingleVector

variable {σ α : Type}

def isObjective : Call α → Bool
  | .objective _ => true
  | .constraints _ => false

def objectiveCalls (session : Session σ α) : Nat :=
  (session.calls.filter isObjective).length

def constraintCalls (session : Session σ α) : Nat :=
  (session.calls.filter fun call => !isObjective call).length

/-- The state of a source after `n` numbers. -/
def drained [Source σ α] (n : Nat) (source : σ) : σ :=
  (fun state => (Source.next state).2)^[n] source

/-- Exactly `n` numbers have been drawn since a session. -/
structure Drawn [Source σ α] (base : Session σ α) (n : Nat) (session : Session σ α) : Prop where
  draws_eq : session.draws = base.draws + n
  source_eq : session.source = drained n base.source

theorem Drawn.of_eq [Source σ α] {base session next : Session σ α} {n : Nat}
    (h : Drawn base n session) (hdraws : next.draws = session.draws)
    (hsource : next.source = session.source) : Drawn base n next :=
  ⟨hdraws.trans h.draws_eq, hsource.trans h.source_eq⟩

theorem Drawn.uniform [Source σ α] {base session : Session σ α} {n : Nat}
    (h : Drawn base n session) : Drawn base (n + 1) (Session.uniform session).2 where
  draws_eq := congrArg (· + 1) h.draws_eq
  source_eq := by
    rw [drained, Function.iterate_succ_apply', ← drained, ← h.source_eq]
    rfl

theorem drained_drained [Source σ α] (m n : Nat) (source : σ) :
    drained m (drained n source) = drained (n + m) source := by
  rw [drained, drained, drained, Nat.add_comm, Function.iterate_add_apply]

theorem Drawn.trans [Source σ α] {first middle last : Session σ α} {m n : Nat}
    (h : Drawn first m middle) (h' : Drawn middle n last) : Drawn first (m + n) last where
  draws_eq := by rw [h'.draws_eq, h.draws_eq, Nat.add_assoc]
  source_eq := by rw [h'.source_eq, h.source_eq, drained_drained]

/-- The stages that are finished by some moves, in order. -/
def finishedStages (moves : List Move) : List Nat :=
  moves.filterMap fun move =>
    match move with
    | .cool stage => some stage
    | _ => none

theorem finishedStages_append (first rest : List Move) :
    finishedStages (first ++ rest) = finishedStages first ++ finishedStages rest :=
  List.filterMap_append

theorem count_sweep (components : Nat) :
    (sweep components).count .aim = 1 ∧ (sweep components).count .propose = components ∧
      finishedStages (sweep components) = [] := by
  simp [sweep, finishedStages, List.count_replicate]

theorem count_block (sweeps components : Nat) :
    (block sweeps components).count .aim = sweeps ∧
      (block sweeps components).count .propose = sweeps * components ∧
      finishedStages (block sweeps components) = [] := by
  obtain ⟨haim, hpropose, hstages⟩ := count_sweep components
  refine ⟨?_, ?_, ?_⟩
  · simp [block, List.count_flatten, haim]
  · simp [block, List.count_flatten, hpropose]
  · rw [finishedStages] at hstages
    simp [block, finishedStages, List.filterMap_flatten, hstages]

theorem count_stage (blocks sweeps components index : Nat) :
    (stage blocks sweeps components index).count .aim = blocks * sweeps ∧
      (stage blocks sweeps components index).count .propose = blocks * sweeps * components ∧
      finishedStages (stage blocks sweeps components index) = [index] := by
  obtain ⟨haim, hpropose, hstages⟩ := count_block sweeps components
  refine ⟨?_, ?_, ?_⟩
  · simp [stage, List.count_flatten, haim]
  · simp [stage, List.count_flatten, hpropose, Nat.mul_assoc]
  · rw [finishedStages] at hstages
    simp [stage, finishedStages, List.filterMap_flatten, hstages]

theorem count_schedule (stages blocks sweeps components : Nat) :
    (schedule stages blocks sweeps components).count .aim = stages * blocks * sweeps ∧
      (schedule stages blocks sweeps components).count .propose =
        stages * blocks * sweeps * components ∧
      finishedStages (schedule stages blocks sweeps components) = List.range stages := by
  refine ⟨?_, ?_, ?_⟩
  · simp [schedule, List.count_flatMap, Function.comp_def, count_stage, Nat.mul_assoc]
  · simp [schedule, List.count_flatMap, Function.comp_def, count_stage, Nat.mul_assoc]
  · have hstages := fun index => (count_stage blocks sweeps components index).2.2
    simp only [finishedStages] at hstages
    simp [schedule, finishedStages, List.filterMap_flatMap, hstages]

variable [Scalar α]

def TellsStage (name : String) (stage : Nat) (event : Event α) : Prop :=
  ∃ temperature fitness, event = .stageDone name stage temperature fitness

/-- The tally of a walk agrees with what its session has recorded since `base`, after some sweeps,
proposals and stages. -/
structure Tallied [Source σ α] (name : String) (base : Session σ α) (sweeps proposals : Nat)
    (stages : List Nat) (s : Stroll σ α) : Prop where
  proposals_eq : s.tally.evaluations + s.tally.outOfBounds = proposals
  improving_le : s.tally.improving ≤ s.tally.accepted
  accepted_le : s.tally.accepted ≤ s.tally.evaluations
  drawn : ∃ n, n + s.tally.improving = sweeps + proposals + s.tally.evaluations ∧
    Drawn base n s.session
  objectiveCalls_eq : objectiveCalls s.session = objectiveCalls base + s.tally.evaluations
  constraintCalls_eq : constraintCalls s.session = constraintCalls base
  events : ∃ told, List.Forall₂ (TellsStage name) stages told ∧
    s.session.events = told.reverse ++ base.events

section Moves

variable [Source σ α] {course : Course α} {base : Session σ α}
  {sweeps proposals : Nat} {stages : List Nat} {s : Stroll σ α}

theorem tallied_aim (h : Tallied course.name base sweeps proposals stages s) :
    Tallied course.name base (sweeps + 1) proposals stages (s.aim course) := by
  obtain ⟨n, hn, hdrawn⟩ := h.drawn
  have hdraws : n + 1 + s.tally.improving = sweeps + 1 + proposals + s.tally.evaluations := by
    omega
  exact ⟨h.proposals_eq, h.improving_le, h.accepted_le, ⟨n + 1, hdraws, hdrawn.uniform⟩,
    h.objectiveCalls_eq, h.constraintCalls_eq, h.events⟩

theorem tallied_propose [Elementary α] (h : Tallied course.name base sweeps proposals stages s) :
    Tallied course.name base sweeps (proposals + 1) stages (s.propose course) := by
  obtain ⟨n, hn, hdrawn⟩ := h.drawn
  have hproposals := h.proposals_eq
  have hproposed : s.tally.evaluations + 1 + s.tally.outOfBounds = proposals + 1 := by omega
  have hcalled : objectiveCalls s.session + 1 =
      objectiveCalls base + (s.tally.evaluations + 1) := congrArg (· + 1) h.objectiveCalls_eq
  -- A second number is drawn for a proposal that is evaluated and does not improve.
  obtain ⟨-, heq⟩ | ⟨-, -, heq⟩ | ⟨-, -, ⟨-, heq⟩ | ⟨-, heq⟩⟩ := propose_cases course s
  · have hdraws : n + 1 + s.tally.improving = sweeps + (proposals + 1) + s.tally.evaluations := by
      omega
    rw [heq]
    exact ⟨congrArg (· + 1) hproposals, h.improving_le, h.accepted_le,
      ⟨n + 1, hdraws, hdrawn.uniform⟩, h.objectiveCalls_eq, h.constraintCalls_eq, h.events⟩
  · have hdraws : n + 1 + (s.tally.improving + 1) =
        sweeps + (proposals + 1) + (s.tally.evaluations + 1) := by omega
    rw [heq]
    exact ⟨hproposed, Nat.succ_le_succ h.improving_le, Nat.succ_le_succ h.accepted_le,
      ⟨n + 1, hdraws, hdrawn.uniform.of_eq rfl rfl⟩, hcalled, h.constraintCalls_eq, h.events⟩
  · have hdraws : n + 1 + 1 + s.tally.improving =
        sweeps + (proposals + 1) + (s.tally.evaluations + 1) := by omega
    rw [heq]
    exact ⟨hproposed, Nat.le_succ_of_le h.improving_le, Nat.succ_le_succ h.accepted_le,
      ⟨n + 1 + 1, hdraws, hdrawn.uniform.uniform.of_eq rfl rfl⟩, hcalled, h.constraintCalls_eq,
      h.events⟩
  · have hdraws : n + 1 + 1 + s.tally.improving =
        sweeps + (proposals + 1) + (s.tally.evaluations + 1) := by omega
    rw [heq]
    exact ⟨hproposed, h.improving_le, Nat.le_succ_of_le h.accepted_le,
      ⟨n + 1 + 1, hdraws, hdrawn.uniform.uniform.of_eq rfl rfl⟩, hcalled, h.constraintCalls_eq,
      h.events⟩

theorem tallied_cool (h : Tallied course.name base sweeps proposals stages s) (stage : Nat) :
    Tallied course.name base sweeps proposals (stages ++ [stage]) (s.cool course stage) := by
  obtain ⟨n, hn, hdrawn⟩ := h.drawn
  obtain ⟨told, htold, hevents⟩ := h.events
  refine ⟨h.proposals_eq, h.improving_le, h.accepted_le, ⟨n, hn, hdrawn.of_eq rfl rfl⟩,
    h.objectiveCalls_eq, h.constraintCalls_eq, ?_⟩
  let event : Event α :=
    .stageDone course.name stage (s.temperature * course.cooling) (s.fitness.headD 0)
  refine ⟨told ++ [event], ?_, ?_⟩
  · exact List.rel_append htold (.cons ⟨_, _, rfl⟩ .nil)
  · rw [List.reverse_append]
    exact congrArg (event :: ·) hevents

theorem tallied_move [Elementary α] (h : Tallied course.name base sweeps proposals stages s)
    (move : Move) :
    Tallied course.name base (sweeps + [move].count .aim) (proposals + [move].count .propose)
      (stages ++ finishedStages [move]) (s.move course move) := by
  cases move with
  | aim =>
      have haim : Tallied course.name base (sweeps + 1) proposals stages (s.aim course) :=
        tallied_aim h
      rwa [← List.append_nil stages] at haim
  | propose =>
      have hpropose : Tallied course.name base sweeps (proposals + 1) stages (s.propose course) :=
        tallied_propose h
      rwa [← List.append_nil stages] at hpropose
  | adjust =>
      rw [← List.append_nil stages] at h
      exact ⟨h.proposals_eq, h.improving_le, h.accepted_le, h.drawn, h.objectiveCalls_eq,
        h.constraintCalls_eq, h.events⟩
  | cool stage => exact tallied_cool h stage

theorem tallied_foldl [Elementary α] (moves : List Move) (h : Tallied course.name base 0 0 [] s) :
    Tallied course.name base (moves.count .aim) (moves.count .propose) (finishedStages moves)
      (moves.foldl (Stroll.move course) s) := by
  induction moves using List.reverseRecOn with
  | nil => exact h
  | append_singleton moves move ih =>
      rw [List.foldl_concat, List.count_append, List.count_append, finishedStages_append]
      exact tallied_move ih move

end Moves

section Runs

variable [Elementary α] [Source σ α] {annealer : Annealer α} {problem : Problem α} {stages : Nat}

theorem tallied_stroll (annealer : Annealer α) (problem : Problem α) (stages : Nat)
    (individual : Individual α) (base : Session σ α) :
    Tallied annealer.name base
      (stages * annealer.config.perTemperature * annealer.config.perRangeAdjust)
      (stages * annealer.config.perTemperature * annealer.config.perRangeAdjust *
        problem.continuousDimension)
      (List.range stages) (stroll annealer problem stages individual base) := by
  have hstart : Tallied (annealer.course problem stages).name base 0 0 []
      (startStroll annealer problem individual base) :=
    ⟨rfl, Nat.le_refl 0, Nat.le_refl 0, ⟨0, rfl, rfl, rfl⟩, rfl, rfl, [], .nil, rfl⟩
  have hwalked := tallied_foldl (annealer.moves problem stages) hstart
  obtain ⟨haim, hpropose, hstages⟩ := count_schedule stages annealer.config.perTemperature
    annealer.config.perRangeAdjust problem.continuousDimension
  rw [Annealer.moves, haim, hpropose, hstages] at hwalked
  rw [stroll, ← foldl_schedule]
  exact hwalked

/-- The events of a run, in order: one when it starts, one for each stage and one when it is
finished. -/
structure TellsRun (annealer : Annealer α) (problem : Problem α) (report : Annealer.Report α)
    (events : List (Event α)) : Prop where
  events_eq : ∃ fitness told,
    events = .annealingStarted annealer.name report.stages fitness problem.name :: told ++
        [.annealingFinished annealer.name report.tally.evaluations report.tally.accepted
          report.improved] ∧
      List.Forall₂ (TellsStage annealer.name) (List.range report.stages) told
  levels_eq : events.map Event.level =
    .debug :: List.replicate report.stages .trace ++ [.debug]

omit [Elementary α] [Source σ α] in
theorem tellsRun {report : Annealer.Report α} {told : List (Event α)}
    (h : List.Forall₂ (TellsStage annealer.name) (List.range report.stages) told) (fitness : α) :
    TellsRun annealer problem report
      (.annealingStarted annealer.name report.stages fitness problem.name :: told ++
        [.annealingFinished annealer.name report.tally.evaluations report.tally.accepted
          report.improved]) := by
  refine ⟨⟨fitness, told, rfl, h⟩, ?_⟩
  have hlevels : told.map Event.level = List.replicate report.stages .trace := by
    rw [List.eq_replicate_iff, List.length_map, ← h.length_eq, List.length_range]
    refine ⟨rfl, ?_⟩
    intro level hlevel
    obtain ⟨event, hevent, rfl⟩ := List.mem_map.mp hlevel
    obtain ⟨i, hi, rfl⟩ := List.getElem_of_mem hevent
    obtain ⟨_, _, heq⟩ := (List.forall₂_iff_get.mp h).2 i (h.length_eq ▸ hi) hi
    rw [List.get_eq_getElem] at heq
    rw [heq]
    rfl
  rw [List.map_append, List.map_cons, hlevels]
  rfl

/-- A report accounts for what has happened between two islands: for every proposal, for every
number that has been drawn, for every call of a function of the problem and for every event. -/
structure Accounts (annealer : Annealer α) (stages : Nat) (before : Island σ α)
    (report : Annealer.Report α) (next : Island σ α) : Prop where
  stages_eq : report.stages = stages
  proposals_eq : report.tally.evaluations + report.tally.outOfBounds =
    stages * annealer.config.perTemperature * annealer.config.perRangeAdjust *
      before.population.problem.continuousDimension
  improving_le : report.tally.improving ≤ report.tally.accepted
  accepted_le : report.tally.accepted ≤ report.tally.evaluations
  drawn : Drawn before.session
    (stages * annealer.config.perTemperature * annealer.config.perRangeAdjust +
      stages * annealer.config.perTemperature * annealer.config.perRangeAdjust *
        before.population.problem.continuousDimension +
      (report.tally.evaluations - report.tally.improving)) next.session
  objectiveCalls_eq : objectiveCalls next.session = objectiveCalls before.session +
    (report.tally.evaluations + if report.improved then 1 else 0)
  constraintCalls_eq : constraintCalls next.session = constraintCalls before.session +
    if report.improved then 1 else 0
  events : ∃ told, TellsRun annealer before.population.problem report told ∧
    next.session.events = told.reverse ++ before.session.events

theorem accounts_concluded (annealer : Annealer α) (stages slot : Nat) (island : Island σ α)
    (individual : Individual α) :
    Accounts annealer stages island
      (reported stages island.population.problem individual slot
        (lastWalk annealer stages individual island))
      (concluded annealer individual slot (lastWalk annealer stages individual island)
        island.population) := by
  let base : Session σ α := (Session.report (.annealingStarted annealer.name stages
    (individual.fitness.headD 0) island.population.problem.name) island.session).2
  have hlast : lastWalk annealer stages individual island =
      (stroll annealer island.population.problem stages individual base).toWalk :=
    walk_eq_stroll annealer _ stages individual base
  have hwalk := tallied_stroll annealer island.population.problem stages individual base
  rw [hlast]
  generalize stroll annealer island.population.problem stages individual base = last at hwalk ⊢
  obtain ⟨n, hn, hdrawn⟩ := hwalk.drawn
  obtain ⟨told, htold, hevents⟩ := hwalk.events
  have hdrawn : Drawn island.session n last.session := ⟨hdrawn.draws_eq, hdrawn.source_eq⟩
  have hle := hwalk.improving_le.trans hwalk.accepted_le
  have hsum : n = stages * annealer.config.perTemperature * annealer.config.perRangeAdjust +
      stages * annealer.config.perTemperature * annealer.config.perRangeAdjust *
        island.population.problem.continuousDimension +
      (last.tally.evaluations - last.tally.improving) := by omega
  have hlogged : ∀ improved, ∃ logged,
      TellsRun annealer island.population.problem
        { bestIndex := slot, stages, tally := last.tally, finalTemperature := last.temperature,
          improved } logged ∧
        .annealingFinished annealer.name last.tally.evaluations last.tally.accepted improved ::
          last.session.events = logged.reverse ++ island.session.events := by
    intro improved
    refine ⟨_, tellsRun htold (individual.fitness.headD 0), ?_⟩
    have hbase : base.events = .annealingStarted annealer.name stages (individual.fitness.headD 0)
      island.population.problem.name :: island.session.events := rfl
    rw [hevents, hbase]
    simp
  by_cases himproves : Improves island.population.problem individual last.toWalk
  · rw [reported, concluded, if_pos himproves, if_pos himproves, decide_eq_true himproves]
    exact ⟨rfl, hwalk.proposals_eq, hwalk.improving_le, hwalk.accepted_le,
      hsum ▸ hdrawn.of_eq rfl rfl, congrArg (· + 1) hwalk.objectiveCalls_eq,
      congrArg (· + 1) hwalk.constraintCalls_eq, hlogged true⟩
  · rw [reported, concluded, if_neg himproves, if_neg himproves, decide_eq_false himproves]
    exact ⟨rfl, hwalk.proposals_eq, hwalk.improving_le, hwalk.accepted_le,
      hsum ▸ hdrawn.of_eq rfl rfl, hwalk.objectiveCalls_eq, hwalk.constraintCalls_eq,
      hlogged false⟩

/-- A run on a population that annealing supports succeeds, unless it is broken off at a position
that a vector does not have.  Its report then accounts for everything that it has done, in counts
that stay in their range if that holds of the proposals. -/
theorem run_accounts [Extended α] {island : Island σ α}
    (hcheck : annealer.checkProblem island.population.problem = .ok stages)
    (hne : island.population.individuals ≠ [])
    (hcount : stages * annealer.config.perTemperature * annealer.config.perRangeAdjust *
      island.population.problem.continuousDimension ≤ maxCount) :
    ((∀ individual ∈ island.population.individuals,
        Indexable island.population.problem individual) →
      (annealer.run? island).isSome) ∧
    ∀ result, annealer.run? island = some result →
      ∃ report next, result = .ok report next ∧ Accounts annealer stages island report next ∧
        report.tally.evaluations ≤ maxCount ∧ report.tally.outOfBounds ≤ maxCount := by
  obtain ⟨individual, slot, hbest⟩ := exists_best hne
  constructor
  · intro hindexable
    have hmem := List.mem_of_getElem? (best_getElem? hbest)
    rw [run?_eq_some hcheck hbest (hindexable individual hmem)]
    rfl
  · intro result hresult
    have haccounts := accounts_concluded annealer stages slot island individual
    have hproposals := haccounts.proposals_eq.trans_le hcount
    refine ⟨_, _, ?_, haccounts, (Nat.le_add_right _ _).trans hproposals,
      (Nat.le_add_left _ _).trans hproposals⟩
    rw [← run_of_run? hresult, run_eq hcheck hbest]

end Runs

theorem indexable_interval {decision velocity : List Binary64} (h : decision ≠ []) :
    Indexable interval (evaluated interval decision velocity) where
  lower_le := Nat.le_refl 1
  upper_le := Nat.le_refl 1
  decision_le := List.length_pos_of_ne_nil h
  fitness_pos := Nat.one_pos
  objective_pos _ _ := Nat.one_pos

theorem interval_run_accounts :
    ∃ report next, standardAnnealer.run? intervalIsland = some (.ok report next) ∧
      report.stages = 10000 ∧ report.tally.evaluations + report.tally.outOfBounds = 10000 ∧
      next.session.draws = 20000 + (report.tally.evaluations - report.tally.improving) := by
  have hcheck : standardAnnealer.checkProblem intervalIsland.population.problem = .ok 10000 := rfl
  have hne : intervalIsland.population.individuals ≠ [] := List.cons_ne_nil _ _
  have hcount : 10000 * 1 * 1 * 1 ≤ maxCount := by decide +kernel
  obtain ⟨hreturns, hreports⟩ := run_accounts hcheck hne hcount
  have hindexable : ∀ individual ∈ intervalIsland.population.individuals,
      Indexable intervalIsland.population.problem individual := by
    intro individual hindividual
    rw [List.mem_singleton.mp hindividual]
    exact indexable_interval (List.cons_ne_nil 1 [])
  obtain ⟨result, hresult⟩ := Option.isSome_iff_exists.mp (hreturns hindexable)
  obtain ⟨report, next, rfl, haccounts, -⟩ := hreports result hresult
  refine ⟨report, next, hresult, haccounts.stages_eq, haccounts.proposals_eq, ?_⟩
  have hdraws := haccounts.drawn.draws_eq
  have hbefore : intervalIsland.session.draws = 0 := rfl
  rw [hbefore, Nat.zero_add] at hdraws
  exact hdraws

/-- An interval with an objective that has no values. -/
def mute : Problem Binary64 :=
  { interval with objective := fun _ => [] }

/-- One individual at the end of that interval. -/
def muteIsland : Island (Script Binary64) Binary64 where
  population := { problem := mute, individuals := [evaluated mute [1] [0]] }
  session := intervalIsland.session

/-- An annealer with the largest budget and the largest stages. -/
def greedyAnnealer : Annealer Binary64 where
  config :=
    { Config.standard with
      totalIterations := maxCount
      perTemperature := maxCount
      perRangeAdjust := 4 }
  check_eq := config_check_eq_ok_iff.mpr (by decide +kernel)

/-- A run is broken off if there are no values to compare, although a decision can be added to the
population and annealing supports it.  The largest budget pays for more proposals than two counts
can hold. -/
theorem run_breaks_off :
    ((∃ session, Island.pushDecision [1] { muteIsland with population := { problem := mute } } =
        .ok () { muteIsland with session }) ∧
      standardAnnealer.checkProblem muteIsland.population.problem = .ok 10000 ∧
      muteIsland.population.individuals ≠ [] ∧ standardAnnealer.run? muteIsland = none) ∧
    greedyAnnealer.checkProblem intervalIsland.population.problem = .ok 1 ∧
      maxCount + maxCount <
        1 * greedyAnnealer.config.perTemperature * greedyAnnealer.config.perRangeAdjust *
          intervalIsland.population.problem.continuousDimension := by
  have hverify : mute.verify [1] = .ok () := rfl
  have hpushed : ∃ session, Island.pushDecision [1]
      { muteIsland with population := { problem := mute } } =
        .ok () { muteIsland with session } := by
    rw [pushDecision_eq, muteIsland]
    simp only [hverify]
    exact ⟨_, rfl⟩
  have hcheck : greedyAnnealer.checkProblem intervalIsland.population.problem = .ok 1 := by
    decide +kernel
  exact ⟨⟨hpushed, rfl, List.cons_ne_nil _ _, rfl⟩, hcheck, by decide +kernel⟩

end Archipelago.Proofs.Accounting
