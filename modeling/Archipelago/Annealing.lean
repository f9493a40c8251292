import Archipelago.Algorithm
import Archipelago.Annealing.Walk

namespace Archipelago

open Annealing

variable {σ α : Type} [Scalar α]

/-- Simulated annealing with a step size of its own for each component.  A run takes the best
individual for a walk and replaces it if the walk ends at a better point. -/
structure Annealer (α : Type) [Scalar α] where
  name : String := "sa_corana"
  config : Config α
  check_eq : config.check = .ok ()

namespace Annealer

/-- What happened during a run. -/
structure Report (α : Type) where
  /-- The slot of the individual that the walk started from. -/
  bestIndex : Nat
  stages : Nat
  tally : Tally
  finalTemperature : α
  /-- The individual in that slot has been replaced. -/
  improved : Bool
deriving DecidableEq

def build (config : Config α) : Except (Error α) (Annealer α) :=
  match h : config.check with
  | .ok () => .ok { config, check_eq := h }
  | .error cause => .error (.configuration cause)

def withName (annealer : Annealer α) (name : String) : Annealer α :=
  { annealer with name }

/-- Number of temperature stages on a problem.  Annealing needs continuous components, no
constraints, one objective, and a budget for one stage at least. -/
def checkProblem (annealer : Annealer α) (problem : Problem α) : Except Unsupported Nat :=
  let continuous := problem.continuousDimension
  let stages := annealer.config.stages continuous
  if continuous = 0 then .error (.noContinuousPart annealer.name)
  else if problem.constraintDimension ≠ 0 then
    .error (.constrained annealer.name problem.constraintDimension)
  else if problem.fitnessDimension ≠ 1 then
    .error (.multiObjective annealer.name problem.fitnessDimension)
  else if stages = 0 then
    .error <|
      .insufficientBudget annealer.name annealer.config.totalIterations
        (annealer.config.iterationsPerStage continuous)
  else .ok stages

/-- All moves of a run. -/
def moves (annealer : Annealer α) (problem : Problem α) (stages : Nat) : List Move :=
  schedule stages annealer.config.perTemperature annealer.config.perRangeAdjust
    problem.continuousDimension

/-- What a run does after its walk.  An improvement replaces the individual that the walk started
from. -/
def conclude (annealer : Annealer α) (stages : Nat) (problem : Problem α)
    (individual : Individual α) (slot : Nat) (last : Walk σ α) : Action σ α (Report α) := do
  let improved := problem.preference.fitness last.fitness individual.fitness
  if improved then
    let velocity := last.point.zipWith (· - ·) individual.decision
    Island.moveTo slot last.point
    Island.setVelocity slot velocity
  Island.perform <|
    Session.report <|
      .annealingFinished annealer.name last.tally.evaluations last.tally.accepted improved
  pure
    { bestIndex := slot
      stages
      tally := last.tally
      finalTemperature := last.temperature
      improved }

variable [Elementary α]

def course (annealer : Annealer α) (problem : Problem α) (stages : Nat) : Course α where
  name := annealer.name
  problem := problem
  config := annealer.config
  cooling :=
    coolingFactor annealer.config.startTemperature annealer.config.endTemperature stages

/-- The walk before its first move. -/
def start (annealer : Annealer α) (problem : Problem α) (individual : Individual α)
    (session : Session σ α) : Walk σ α where
  point := individual.decision
  fitness := individual.fitness
  trial := individual.decision
  steps := List.replicate problem.continuousDimension annealer.config.stepRange
  accepted := List.replicate problem.continuousDimension 0
  temperature := annealer.config.startTemperature
  session := session

variable [Source σ α]

/-- The whole walk. -/
def walk (annealer : Annealer α) (problem : Problem α) (stages : Nat) (individual : Individual α)
    (session : Session σ α) : Walk σ α :=
  (annealer.start problem individual session).follow (annealer.course problem stages)
    (annealer.moves problem stages)

/-- The whole walk, or `none` if it reads a position that a vector does not have. -/
def walk? (annealer : Annealer α) (problem : Problem α) (stages : Nat)
    (individual : Individual α) (session : Session σ α) : Option (Walk σ α) :=
  (annealer.start problem individual session).follow? (annealer.course problem stages)
    (annealer.moves problem stages)

variable [Extended α]

/-- A run.  It reads zero at a position that a vector does not have, where `run?` is broken off. -/
def run (annealer : Annealer α) : Action σ α (Report α) := do
  let population ← Island.getPopulation
  let problem := population.problem
  let stages ← Attempt.require ((annealer.checkProblem problem).mapError .unsupported)
  let (individual, slot) ← Island.require population.best
  Island.perform <|
    Session.report <|
      .annealingStarted annealer.name stages (individual.fitness.headD 0) problem.name
  let last ← Island.perform fun session =>
    let last := annealer.walk problem stages individual session
    (last, last.session)
  annealer.conclude stages problem individual slot last

/-- A run that tells its events at every level, or `none` if it reads a position that a vector does
not have, which breaks it off. -/
def run? (annealer : Annealer α) (island : Island σ α) :
    Option (EStateM.Result (Error α) (Island σ α) (Report α)) :=
  let problem := island.population.problem
  match annealer.checkProblem problem, island.population.best with
  | .error cause, _ => some (.error (.unsupported cause) island)
  | _, .error cause => some (.error (.precondition cause) island)
  | .ok stages, .ok (individual, slot) => do
    let fitness ← individual.fitness.head?
    let ((), session) :=
      Session.report (.annealingStarted annealer.name stages fitness problem.name) island.session
    let last ← annealer.walk? problem stages individual session
    some (annealer.conclude stages problem individual slot last
      { island with session := last.session })

/-- The name with all parameters. -/
def identifier [Numeral α] (annealer : Annealer α) : String :=
  let config := annealer.config
  s!"{annealer.name}[iterations={config.totalIterations}, " ++
    s!"start={Numeral.plain config.startTemperature}, " ++
    s!"end={Numeral.plain config.endTemperature}, " ++
    s!"per_temperature={config.perTemperature}, " ++
    s!"per_range_adjust={config.perRangeAdjust}, " ++
    s!"range={Numeral.plain config.stepRange}]"

def toAlgorithm [Numeral α] (annealer : Annealer α) : Algorithm σ α where
  name := annealer.name
  identifier := annealer.identifier
  evolve := do
    let _ ← annealer.run

end Annealer

end Archipelago
