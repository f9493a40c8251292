import Archipelago.Problem

namespace Archipelago

variable {α : Type} [Scalar α]

/-- A problem assembled from bounds and functions. -/
structure BoxProblem (α : Type) [Scalar α] where
  name : String := "fn problem"
  lower : List α
  upper : List α
  integers : Nat := 0
  objectives : Nat
  constraintCount : Nat := 0
  objective : List α → List α
  constraints : List α → List α := fun _ => []
  length_eq : lower.length = upper.length
  le_of_mem : ∀ bounds ∈ lower.zip upper, bounds.1 ≤ bounds.2

namespace BoxProblem

/-- Fails unless there are as many lower as upper bounds, each at most its partner. -/
def build (lower upper : List α) (objectives : Nat) (objective : List α → List α) :
    Except (Violation α) (BoxProblem α) :=
  if length_eq : lower.length = upper.length then
    match h : (lower.zip upper).findIdx? fun bounds => !decide (bounds.1 ≤ bounds.2) with
    | some index => .error (.invertedBounds index (lower.getD index 0) (upper.getD index 0))
    | none =>
      .ok
        { lower, upper, objectives, objective, length_eq
          le_of_mem := by simpa using List.findIdx?_eq_none_iff.mp h }
  else .error (.dimensionMismatch lower.length upper.length)

/-- A problem with one objective. -/
def scalar (lower upper : List α) (objective : List α → α) : Except (Violation α) (BoxProblem α) :=
  build lower upper 1 fun x => [objective x]

def withName (problem : BoxProblem α) (name : String) : BoxProblem α :=
  { problem with name }

/-- Makes the last `n` components whole numbers, or all of them if there are fewer. -/
def withIntegers (problem : BoxProblem α) (n : Nat) : BoxProblem α :=
  { problem with integers := min n problem.lower.length }

def withConstraints (problem : BoxProblem α) (n : Nat) (constraints : List α → List α) :
    BoxProblem α :=
  { problem with constraintCount := n, constraints }

def toProblem (problem : BoxProblem α) : Problem α where
  name := problem.name
  lower := problem.lower
  upper := problem.upper
  integerDimension := problem.integers
  fitnessDimension := problem.objectives
  constraintDimension := problem.constraintCount
  objective := problem.objective
  constraints := problem.constraints

def text [Numeral α] (problem : BoxProblem α) : String :=
  Text.openRecord "FnProblem"
    [("name", Text.quoted problem.name),
      ("lower", Text.vector problem.lower),
      ("upper", Text.vector problem.upper),
      ("integer_dimension", toString problem.integers),
      ("fitness_dimension", toString problem.objectives),
      ("constraint_dimension", toString problem.constraintCount)]

end BoxProblem

end Archipelago
