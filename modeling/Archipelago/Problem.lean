import Archipelago.Dominance
import Archipelago.Error

namespace Archipelago

variable {α : Type} [Scalar α]

/-- Which of two results comes first.  Every relation is meant to be strict. -/
structure Preference (α : Type) where
  fitness : List α → List α → Bool
  constraints : List α → List α → Bool
  /-- Compares the fitness and the constraint values of one result with those of another. -/
  solutions : List α → List α → List α → List α → Bool

namespace Preference

/-- Fitness decides between feasible results, the constraints decide between all others. -/
def feasibleFirst (fitness constraints : List α → List α → Bool) : Preference α where
  fitness := fitness
  constraints := constraints
  solutions fa ca fb cb :=
    if feasible ca ∧ feasible cb then fitness fa fb else constraints ca cb

def standard : Preference α :=
  feasibleFirst fitnessPrecedes constraintsPrecede

end Preference

/-- Fails unless both lengths agree. -/
def checkLength (expected actual : Nat) : Except (Violation α) Unit :=
  if expected = actual then .ok () else .error (.dimensionMismatch expected actual)

/-- Every component has to lie between its bounds, and those from position `continuous` on have to
be whole numbers.  `index` is the position of the first component of the lists. -/
def checkComponents (continuous : Nat) :
    (index : Nat) → (lower upper decision : List α) → Except (Violation α) Unit
  | index, l :: lower, u :: upper, x :: decision =>
    if ¬(l ≤ x ∧ x ≤ u) then .error (.outOfBounds index x l u)
    else if continuous ≤ index ∧ ¬Scalar.IsWhole x then .error (.nonIntegral index x)
    else checkComponents continuous (index + 1) lower upper decision
  | _, _, _, _ => .ok ()

/-- What populations and algorithms know of an optimization problem.  Of the components of a
decision the first `continuousDimension` are numbers and the rest are whole numbers.  Objectives are
minimized, and a constraint value is satisfied up to zero. -/
structure Problem (α : Type) [Scalar α] where
  name : String := "problem"
  lower : List α
  upper : List α
  dimension : Nat := lower.length
  integerDimension : Nat := 0
  continuousDimension : Nat := dimension - integerDimension
  fitnessDimension : Nat := 1
  constraintDimension : Nat := 0
  objective : List α → List α
  constraints : List α → List α := fun _ => []
  preference : Preference α := .standard
  verify : List α → Except (Violation α) Unit := fun decision => do
    checkLength dimension decision.length
    checkComponents continuousDimension 0 lower upper decision
  /-- Tells instances of problems apart. -/
  key : Nat := 0
  /-- Evaluations of the objective are metered. -/
  counted : Bool := false

/-- The same problem with its evaluations metered. -/
def Problem.counting (problem : Problem α) : Problem α :=
  { problem with counted := true }

/-- A box from which decisions or velocities are drawn needs bounds for every component, and room
between them.  If it is `nested`, then whole numbers are drawn for the integer components, and the
box has to lie within the bounds of the problem. -/
def Problem.checkBox (problem : Problem α) (nested : Bool) (lower upper : List α) :
    Except (Violation α) Unit := do
  checkLength problem.dimension lower.length
  checkLength problem.dimension upper.length
  (List.range problem.dimension).forM fun index => do
    let l := lower.getD index 0
    let u := upper.getD index 0
    let hollow :=
      if nested ∧ problem.continuousDimension ≤ index then
        decide (Scalar.floor u < Scalar.ceil l)
      else !decide (l ≤ u)
    if hollow then throw (.invertedBounds index l u)
    if nested then
      let least := problem.lower.getD index 0
      let greatest := problem.upper.getD index 0
      [l, u].forM fun value =>
        if value < least ∨ greatest < value then
          throw (.outOfBounds index value least greatest)
        else pure ()

end Archipelago
