import Archipelago.Attempt
import Archipelago.Session

namespace Archipelago

/-- A candidate solution.  The velocity is at the disposal of algorithms. -/
structure Individual (α : Type) where
  decision : List α
  velocity : List α
  fitness : List α
  constraints : List α
deriving BEq

namespace Individual

variable {σ α : Type}

def text [Numeral α] (individual : Individual α) : String :=
  Text.record "Individual"
    [("decision", Text.vector individual.decision),
      ("velocity", Text.vector individual.velocity),
      ("fitness", Text.vector individual.fitness),
      ("constraints", Text.vector individual.constraints)]

variable [Scalar α]

def isFeasible (individual : Individual α) : Bool :=
  feasible individual.constraints

def isPreferredOver (problem : Problem α) (a b : Individual α) : Bool :=
  problem.preference.solutions a.fitness a.constraints b.fitness b.constraints

/-- Same individual with another velocity of the right length. -/
def withVelocity (individual : Individual α) (velocity : List α) :
    Except (Violation α) (Individual α) := do
  checkLength individual.decision.length velocity.length
  return { individual with velocity }

/-- Checks that an individual has the shape that a problem asks for. -/
def checkShape (problem : Problem α) (individual : Individual α) : Except (Violation α) Unit := do
  problem.verify individual.decision
  checkLength individual.decision.length individual.velocity.length
  checkLength problem.fitnessDimension individual.fitness.length
  checkLength problem.constraintDimension individual.constraints.length

/-- Builds an individual from a decision that needs no check. -/
def evaluate (problem : Problem α) (decision velocity : List α) :
    StateM (Session σ α) (Individual α) := do
  let fitness ← Session.objective problem decision
  let constraints ← Session.constraints problem decision
  return { decision, velocity, fitness, constraints }

/-- Replaces the decision by one that needs no check. -/
def move (problem : Problem α) (individual : Individual α) (decision : List α) :
    StateM (Session σ α) (Individual α) :=
  evaluate problem decision individual.velocity

/-- Builds an individual from a decision that the problem accepts. -/
def create (problem : Problem α) (decision velocity : List α) :
    Attempt (Violation α) (Session σ α) (Individual α) := do
  Attempt.require (problem.verify decision)
  Attempt.require (checkLength decision.length velocity.length)
  Attempt.perform (evaluate problem decision velocity)

def atRest (problem : Problem α) (decision : List α) :
    Attempt (Violation α) (Session σ α) (Individual α) :=
  create problem decision (List.replicate decision.length 0)

end Individual

end Archipelago
