import Archipelago.Scalar

namespace Archipelago

/-- Outcome of comparing two things of which either may dominate the other. -/
inductive Dominance where
  | left
  | right
  | neither
deriving DecidableEq

variable {α : Type} [Scalar α]

/-- Some component of the first vector is smaller than its partner. -/
def winsSomewhere (a b : List α) : Bool :=
  (a.zip b).any fun pair => decide (pair.1 < pair.2)

/-- Pareto dominance between objective vectors, all objectives being minimized. -/
def dominance (a b : List α) : Dominance :=
  match winsSomewhere a b, winsSomewhere b a with
  | true, false => .left
  | false, true => .right
  | _, _ => .neither

def dominates (a b : List α) : Bool :=
  dominance a b = .left

/-- A constraint value is satisfied up to zero. -/
def feasible (constraints : List α) : Bool :=
  constraints.all fun c => decide (c ≤ 0)

/-- By how much a constraint value is violated. -/
def excess (c : α) : α :=
  if 0 < c then c else 0

def totalViolation (constraints : List α) : α :=
  Scalar.total (constraints.map excess)

/-- Single objectives are compared as numbers, all other vectors by dominance. -/
def fitnessPrecedes : List α → List α → Bool
  | [a], [b] => decide (a < b)
  | a, b => dominates a b

/-- Feasible vectors come before infeasible ones, and less violated ones before more violated
ones. -/
def constraintsPrecede (a b : List α) : Bool :=
  match feasible a, feasible b with
  | true, false => true
  | false, false => decide (totalViolation a < totalViolation b)
  | _, true => false

end Archipelago
