import Archipelago.Attempt
import Archipelago.Population
import Archipelago.Sampling

namespace Archipelago

/-- A population at work: the population and the session that its operations share. -/
structure Island (σ α : Type) [Scalar α] where
  population : Population α
  session : Session σ α

/-- An operation on an island. -/
abbrev Action (σ α : Type) [Scalar α] (β : Type) :=
  Attempt (Error α) (Island σ α) β

namespace Island

variable {σ α β : Type} [Scalar α]

def getPopulation : Action σ α (Population α) :=
  return (← get).population

/-- Stops at a violated precondition. -/
def require (check : Except (Violation α) β) : Action σ α β :=
  Attempt.require (check.mapError .precondition)

/-- An operation on the session that cannot fail. -/
def perform (operation : StateM (Session σ α) β) : Action σ α β :=
  fun island =>
    let (value, session) := operation island.session
    .ok value { island with session }

/-- An operation on the session that may violate a precondition. -/
def attempt (operation : Attempt (Violation α) (Session σ α) β) : Action σ α β :=
  fun island =>
    match operation island.session with
    | .ok value session => .ok value { island with session }
    | .error cause session => .error (.precondition cause) { island with session }

def update (change : Population α → Population α) : Action σ α Unit :=
  modify fun island => { island with population := change island.population }

/-- Appends an individual that fits the problem. -/
def push (individual : Individual α) : Action σ α Unit := do
  let population ← getPopulation
  require (individual.checkShape population.problem)
  update (·.push individual)

/-- Evaluates a decision and appends it, at rest. -/
def pushDecision (decision : List α) : Action σ α Unit := do
  let population ← getPopulation
  let individual ← attempt (Individual.atRest population.problem decision)
  update (·.push individual)

/-- Overwrites a slot with an individual that fits the problem. -/
def substitute (index : Nat) (individual : Individual α) : Action σ α Unit := do
  let population ← getPopulation
  let _ ← require (population.member index)
  require (individual.checkShape population.problem)
  update (·.set index individual)

/-- Moves the individual in a slot to a decision that needs no check. -/
def moveTo (index : Nat) (decision : List α) : Action σ α Unit := do
  let population ← getPopulation
  let individual ← require (population.member index)
  let moved ← perform (individual.move population.problem decision)
  update (·.set index moved)

def setDecision (index : Nat) (decision : List α) : Action σ α Unit := do
  let population ← getPopulation
  let _ ← require (population.member index)
  require (population.problem.verify decision)
  moveTo index decision

def setVelocity (index : Nat) (velocity : List α) : Action σ α Unit := do
  let population ← getPopulation
  let individual ← require (population.member index)
  let individual ← require (individual.withVelocity velocity)
  update (·.set index individual)

/-- Evaluates every individual anew. -/
def reevaluate : Action σ α Unit := do
  let population ← getPopulation
  let individuals ← perform <|
    population.individuals.mapM fun individual =>
      individual.move population.problem individual.decision
  update ({ · with individuals })

variable [Source σ α]

/-- Draws and evaluates one individual in a box that has been checked. -/
def drawIndividual (problem : Problem α) (lower upper : List α) :
    StateM (Session σ α) (Individual α) := do
  let decision ← Sampling.decision problem.continuousDimension lower upper
  Individual.evaluate problem decision (List.replicate problem.dimension 0)

/-- Replaces the population by random individuals from a box within the bounds of the problem. -/
def createRandom (lower upper : List α) (n : Nat) : Action σ α Unit := do
  let problem := (← getPopulation).problem
  require (problem.checkBox true lower upper)
  let individuals ← perform <|
    (List.replicate n ()).mapM fun _ => drawIndividual problem lower upper
  update ({ · with individuals })
  perform (Session.report (.created n problem.name))

/-- Replaces the population by random individuals from within the bounds of the problem. -/
def populate (n : Nat) : Action σ α Unit := do
  let problem := (← getPopulation).problem
  createRandom problem.lower problem.upper n

/-- Draws every velocity from a box. -/
def resetVelocities (lower upper : List α) : Action σ α Unit := do
  let population ← getPopulation
  require (population.problem.checkBox false lower upper)
  (List.range population.size).forM fun index => do
    let velocity ← perform (Sampling.vector lower upper)
    setVelocity index velocity

end Island

end Archipelago
