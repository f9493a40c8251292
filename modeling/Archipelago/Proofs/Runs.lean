import Archipelago.Binary64
import Archipelago.Proofs.Actions
import Archipelago.Proofs.Selection
import Archipelago.Proofs.SingleVector

namespace Archipelago.Proofs.Runs

open Actions
open Annealing
open Selection
open SingleVector

variable {σ α : Type} [Scalar α]

/-- What a run makes of the individual that its walk starts from, if it ends at a better point. -/
def improvement (problem : Problem α) (individual : Individual α) (point : List α) : Individual α :=
  evaluated problem point (point.zipWith (· - ·) individual.decision)

/-- The two steps in which a run overwrites the slot of its walk. -/
theorem moveTo_setVelocity_bind {β : Type} {island : Island σ α} {individual : Individual α}
    {slot : Nat} (hslot : island.population.individuals[slot]? = some individual) {point : List α}
    (hlength : point.length = individual.decision.length) (f : Unit → Action σ α β) :
    (Island.moveTo slot point >>= fun _ =>
      Island.setVelocity slot (point.zipWith (· - ·) individual.decision) >>= f) island =
        f ()
          { population := island.population.set slot
              (improvement island.population.problem individual point)
            session := (Individual.evaluate island.population.problem point individual.velocity
              island.session).2 } := by
  have hmember : island.population.member slot = .ok individual := by
    simp only [Population.member, Population.get?, hslot]
  have hlt : slot < island.population.individuals.length := (List.getElem?_eq_some_iff.mp hslot).1
  have hmoved : (island.population.set slot
      (evaluated island.population.problem point individual.velocity)).member slot =
        .ok (evaluated island.population.problem point individual.velocity) := by
    simp only [Population.member, Population.get?, Population.set, List.getElem?_set_self hlt]
  have hcheck : (checkLength point.length (point.zipWith (· - ·) individual.decision).length :
      Except (Violation α) Unit) = .ok () := by
    rw [checkLength_eq_ok_iff, List.length_zipWith, hlength, Nat.min_self]
  rw [bind_apply, moveTo_eq, hmember]
  simp only
  rw [bind_apply, setVelocity_eq, hmoved]
  simp only [evaluated, hcheck]
  simp only [Population.set, List.set_set, improvement, evaluated]

variable [Elementary α] [Source σ α]

def lastWalk (annealer : Annealer α) (stages : Nat) (individual : Individual α)
    (island : Island σ α) : Walk σ α :=
  annealer.walk island.population.problem stages individual
    (Session.report (.annealingStarted annealer.name stages (individual.fitness.headD 0)
      island.population.problem.name) island.session).2

/-- The walk of a run ends at a better fitness than it starts from. -/
def Improves (problem : Problem α) (individual : Individual α) (last : Walk σ α) : Prop :=
  problem.preference.fitness last.fitness individual.fitness = true

omit [Elementary α] [Source σ α] in
instance (problem : Problem α) (individual : Individual α) (last : Walk σ α) :
    Decidable (Improves problem individual last) :=
  inferInstanceAs (Decidable (_ = _))

/-- The island after a run that has walked to `last`. -/
def concluded (annealer : Annealer α) (individual : Individual α) (slot : Nat) (last : Walk σ α)
    (population : Population α) : Island σ α where
  population :=
    if Improves population.problem individual last then
      population.set slot (improvement population.problem individual last.point)
    else population
  session :=
    (Session.report (.annealingFinished annealer.name last.tally.evaluations last.tally.accepted
      (decide (Improves population.problem individual last)))
      (if Improves population.problem individual last then
        (Individual.evaluate population.problem last.point individual.velocity last.session).2
      else last.session)).2

def reported (stages : Nat) (problem : Problem α) (individual : Individual α) (slot : Nat)
    (last : Walk σ α) : Annealer.Report α where
  bestIndex := slot
  stages := stages
  tally := last.tally
  finalTemperature := last.temperature
  improved := decide (Improves problem individual last)

section Concluded

omit [Elementary α] [Source σ α]

variable {annealer : Annealer α} {individual : Individual α} {slot : Nat} {last : Walk σ α}
  {population : Population α}

theorem concluded_of_improves (h : Improves population.problem individual last) :
    (concluded annealer individual slot last population).population =
      population.set slot (improvement population.problem individual last.point) :=
  if_pos h

theorem concluded_of_not_improves (h : ¬Improves population.problem individual last) :
    (concluded annealer individual slot last population).population = population :=
  if_neg h

end Concluded

section LastWalk

variable {annealer : Annealer α} {island : Island σ α} {stages : Nat}
  (hcheck : annealer.checkProblem island.population.problem = .ok stages)
  (individual : Individual α)

include hcheck

theorem exists_tracks_lastWalk :
    ∃ last : Stroll σ α, Tracks island.population.problem individual last ∧
      lastWalk annealer stages individual island = last.toWalk := by
  have hc := Nat.pos_of_ne_zero (checkProblem_eq_ok_iff.mp hcheck).1
  exact ⟨_, tracks_stroll hc stages individual _, walk_eq_stroll annealer _ stages individual _⟩

theorem lastWalk_length :
    (lastWalk annealer stages individual island).point.length = individual.decision.length := by
  obtain ⟨last, htracks, heq⟩ := exists_tracks_lastWalk hcheck individual
  rw [heq]
  exact htracks.length_eq

theorem lastWalk_fitness :
    (lastWalk annealer stages individual island).fitness = individual.fitness ∨
      (lastWalk annealer stages individual island).fitness =
        island.population.problem.objective (lastWalk annealer stages individual island).point := by
  obtain ⟨last, htracks, heq⟩ := exists_tracks_lastWalk hcheck individual
  rw [heq]
  rcases Nat.eq_zero_or_pos last.tally.accepted with hnone | hsome
  · exact .inl (htracks.unmoved hnone).2
  · exact .inr (htracks.evaluated hsome)

end LastWalk

section Extended

variable [Extended α]

theorem run_of_unsupported {annealer : Annealer α} {island : Island σ α} {cause : Unsupported}
    (h : annealer.checkProblem island.population.problem = .error cause) :
    annealer.run island = .error (.unsupported cause) island := by
  rw [Annealer.run, getPopulation_bind, check_bind, h]
  rfl

theorem run_of_empty {annealer : Annealer α} {island : Island σ α} {stages : Nat}
    {cause : Violation α}
    (hcheck : annealer.checkProblem island.population.problem = .ok stages)
    (h : island.population.best = .error cause) :
    annealer.run island = .error (.precondition cause) island := by
  rw [Annealer.run, getPopulation_bind, check_bind, hcheck]
  simp only [Except.mapError]
  rw [require_bind, h]

omit [Elementary α] [Source σ α] [Extended α] in
theorem conclude_eq {population : Population α} {individual : Individual α} {slot : Nat}
    (hslot : population.individuals[slot]? = some individual) {last : Walk σ α}
    (hlength : last.point.length = individual.decision.length) (annealer : Annealer α)
    (stages : Nat) :
    annealer.conclude stages population.problem individual slot last
        { population, session := last.session } =
      .ok (reported stages population.problem individual slot last)
        (concluded annealer individual slot last population) := by
  rw [Annealer.conclude, reported, concluded]
  by_cases himproves : Improves population.problem individual last
  · rw [if_pos himproves, if_pos himproves, decide_eq_true himproves]
    have heq : population.problem.preference.fitness last.fitness individual.fitness = true :=
      himproves
    simp only [heq, if_true]
    rw [moveTo_setVelocity_bind hslot hlength]
    rfl
  · rw [if_neg himproves, if_neg himproves, decide_eq_false himproves]
    have heq : population.problem.preference.fitness last.fitness individual.fitness = false :=
      Bool.eq_false_iff.mpr himproves
    simp only [heq, Bool.false_eq_true, if_false]
    rfl

theorem run_eq_conclude {annealer : Annealer α} {island : Island σ α} {stages slot : Nat}
    {individual : Individual α}
    (hcheck : annealer.checkProblem island.population.problem = .ok stages)
    (hbest : island.population.best = .ok (individual, slot)) :
    annealer.run island =
      annealer.conclude stages island.population.problem individual slot
        (lastWalk annealer stages individual island)
        { island with session := (lastWalk annealer stages individual island).session } := by
  rw [Annealer.run, getPopulation_bind, check_bind, hcheck]
  simp only [Except.mapError]
  rw [require_bind, hbest]
  rfl

theorem run_eq {annealer : Annealer α} {island : Island σ α} {stages slot : Nat}
    {individual : Individual α}
    (hcheck : annealer.checkProblem island.population.problem = .ok stages)
    (hbest : island.population.best = .ok (individual, slot)) :
    annealer.run island =
      .ok (reported stages island.population.problem individual slot
          (lastWalk annealer stages individual island))
        (concluded annealer individual slot (lastWalk annealer stages individual island)
          island.population) := by
  rw [run_eq_conclude hcheck hbest]
  exact conclude_eq (best_getElem? hbest) (lastWalk_length hcheck individual) annealer stages

/-- A run fails before it has done anything, or it walks from the best individual. -/
theorem run_fails_or_walks (annealer : Annealer α) (island : Island σ α) :
    (∃ cause, annealer.run island = .error cause island) ∨
      ∃ stages individual slot,
        annealer.checkProblem island.population.problem = .ok stages ∧
        island.population.best = .ok (individual, slot) ∧
        annealer.run island =
          .ok (reported stages island.population.problem individual slot
              (lastWalk annealer stages individual island))
            (concluded annealer individual slot (lastWalk annealer stages individual island)
              island.population) := by
  cases hcheck : annealer.checkProblem island.population.problem with
  | error cause => exact .inl ⟨_, run_of_unsupported hcheck⟩
  | ok stages =>
      cases hbest : island.population.best with
      | error cause => exact .inl ⟨_, run_of_empty hcheck hbest⟩
      | ok found => exact .inr ⟨stages, found.1, found.2, rfl, rfl, run_eq hcheck hbest⟩

theorem exists_of_run {annealer : Annealer α} {island next : Island σ α}
    {report : Annealer.Report α} (h : annealer.run island = .ok report next) :
    ∃ stages individual slot,
      annealer.checkProblem island.population.problem = .ok stages ∧
      island.population.best = .ok (individual, slot) ∧
      report = reported stages island.population.problem individual slot
        (lastWalk annealer stages individual island) ∧
      next = concluded annealer individual slot (lastWalk annealer stages individual island)
        island.population := by
  obtain ⟨cause, hfails⟩ | ⟨stages, individual, slot, hcheck, hbest, hrun⟩ :=
    run_fails_or_walks annealer island
  · rw [hfails] at h
    contradiction
  · rw [hrun] at h
    injection h with hreport hnext
    exact ⟨stages, individual, slot, hcheck, hbest, hreport.symm, hnext.symm⟩

/-- A run whose walk keeps a single vector. -/
def runStroll (annealer : Annealer α) : Action σ α (Annealer.Report α) := do
  let population ← Island.getPopulation
  let problem := population.problem
  let stages ← Attempt.require ((annealer.checkProblem problem).mapError .unsupported)
  let (individual, slot) ← Island.require population.best
  Island.perform <|
    Session.report <|
      .annealingStarted annealer.name stages (individual.fitness.headD 0) problem.name
  let last ← Island.perform fun session =>
    let last := stroll annealer problem stages individual session
    (last, last.session)
  annealer.conclude stages problem individual slot last.toWalk

theorem run_eq_runStroll (annealer : Annealer α) :
    (annealer.run : Action σ α (Annealer.Report α)) = runStroll annealer := by
  simp only [Annealer.run, walk_eq_stroll]
  rfl

/-- A run on a problem that annealing supports walks from the best individual.  Between any two
moves the trial point is the current point, and the run is that of a walk with a single vector. -/
theorem run_refines_single_vector (annealer : Annealer α) (island : Island σ α) (stages : Nat)
    (hcheck : annealer.checkProblem island.population.problem = .ok stages)
    (hne : island.population.individuals ≠ []) :
    (∃ individual slot, island.population.best = .ok (individual, slot) ∧
      ∀ session : Session σ α,
        KeepsSingleVector annealer island.population.problem stages individual session) ∧
    (∃ report after, annealer.run island = .ok report after) ∧
    annealer.run island = runStroll annealer island := by
  obtain ⟨individual, slot, hbest⟩ := exists_best hne
  refine ⟨⟨individual, slot, hbest, ?_⟩, ⟨_, _, run_eq hcheck hbest⟩, ?_⟩
  · intro session
    exact keepsSingleVector hcheck individual session
  · rw [run_eq_runStroll]

end Extended

omit [Elementary α] [Source σ α] in
theorem config_check_eq_ok_iff {config : Config α} :
    config.check = .ok () ↔
      config.totalIterations ≠ 0 ∧
        (0 < config.endTemperature ∧ config.endTemperature < config.startTemperature) ∧
        (0 ≤ config.stepRange ∧ config.stepRange ≤ 1) := by
  rw [Config.check]
  split_ifs
  · simp_all
  · simp_all
  · simp_all
  · simp_all

def standardAnnealer : Annealer Binary64 where
  config := .standard
  check_eq := config_check_eq_ok_iff.mpr (by decide +kernel)

def interval : Problem Binary64 where
  lower := [-1]
  upper := [1]
  objective := fun decision => [decision.headD 0]

/-- One individual at the end of the interval. -/
def endpoint : Population Binary64 where
  problem := interval
  individuals := [evaluated interval [1] [0]]

/-- That population with a source that repeats one number. -/
def intervalIsland : Island (Script Binary64) Binary64 where
  population := endpoint
  session := { source := .constant 0.5 }

theorem interval_run_refines_single_vector :
    (∃ report after, standardAnnealer.run intervalIsland = .ok report after) ∧
      standardAnnealer.run intervalIsland = runStroll standardAnnealer intervalIsland := by
  have hcheck : standardAnnealer.checkProblem intervalIsland.population.problem = .ok 10000 := rfl
  have hne : intervalIsland.population.individuals ≠ [] := List.cons_ne_nil _ _
  exact (run_refines_single_vector standardAnnealer intervalIsland 10000 hcheck hne).2

end Archipelago.Proofs.Runs
