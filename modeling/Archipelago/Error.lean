import Archipelago.Text

namespace Archipelago

/-- An operation was asked for something that it cannot honour. -/
inductive Violation (α : Type) where
  | emptyPopulation
  | emptyDeme
  | indexOutOfRange (index size : Nat)
  | demeTooLarge (requested available : Nat)
  | demeLengthMismatch (individuals picks : Nat)
  | duplicatePick (index : Nat)
  | dimensionMismatch (expected actual : Nat)
  | outOfBounds (index : Nat) (value lower upper : α)
  | nonIntegral (index : Nat) (value : α)
  | invertedBounds (index : Nat) (lower upper : α)
  | multiObjectiveStatistics (objectives : Nat)
deriving DecidableEq

/-- The parameters of an algorithm make no sense. -/
inductive Misconfiguration (α : Type) where
  | noIterations
  | temperatures (start stop : α)
  | stepRange (range : α)
deriving DecidableEq

/-- An algorithm cannot handle a problem of this shape. -/
inductive Unsupported where
  | noContinuousPart (algorithm : String)
  | constrained (algorithm : String) (constraints : Nat)
  | multiObjective (algorithm : String) (objectives : Nat)
  | insufficientBudget (algorithm : String) (budget perStage : Nat)
deriving DecidableEq

inductive Error (α : Type) where
  | configuration (cause : Misconfiguration α)
  | unsupported (cause : Unsupported)
  | precondition (cause : Violation α)
deriving DecidableEq

section Messages

variable {α : Type} [Numeral α]

open Numeral (plain)

def Violation.message : Violation α → String
  | .emptyPopulation => "operation requires a non-empty population"
  | .emptyDeme => "operation requires a non-empty deme"
  | .indexOutOfRange index size =>
    s!"index {index} out of range for population of size {size}"
  | .demeTooLarge requested available =>
    s!"cannot draw a deme of {requested} from a population of {available}"
  | .demeLengthMismatch individuals picks =>
    s!"deme holds {individuals} individuals but {picks} picks"
  | .duplicatePick index => s!"index {index} is picked more than once"
  | .dimensionMismatch expected actual =>
    s!"expected a vector of length {expected}, got {actual}"
  | .outOfBounds index value lower upper =>
    s!"component {index} = {plain value} lies outside [{plain lower}, {plain upper}]"
  | .nonIntegral index value =>
    s!"integer component {index} holds non-integral value {plain value}"
  | .invertedBounds index lower upper =>
    s!"lower bound {plain lower} exceeds upper bound {plain upper} at component {index}"
  | .multiObjectiveStatistics objectives =>
    s!"statistics over raw fitness need a single objective, problem has {objectives}"

def Misconfiguration.message : Misconfiguration α → String
  | .noIterations => "total_iterations must be positive"
  | .temperatures start stop =>
    s!"temperatures must be positive and start ({plain start}) must exceed end ({plain stop})"
  | .stepRange range => s!"initial_step_range must lie in [0, 1], got {plain range}"

def Unsupported.message : Unsupported → String
  | .noContinuousPart algorithm =>
    s!"{algorithm}: the decision vector has no continuous part"
  | .constrained algorithm constraints =>
    s!"{algorithm}: problem has {constraints} constraint(s), " ++
      "only box-constrained problems are supported"
  | .multiObjective algorithm objectives =>
    s!"{algorithm}: problem has {objectives} objectives, " ++
      "only single-objective problems are supported"
  | .insufficientBudget algorithm budget perStage =>
    s!"{algorithm}: iteration budget {budget} is too small for one temperature stage " ++
      s!"({perStage} evaluations needed)"

def Error.message : Error α → String
  | .configuration cause => "invalid configuration: " ++ cause.message
  | .unsupported cause => "unsupported problem: " ++ cause.message
  | .precondition cause => "precondition violated: " ++ cause.message

end Messages

end Archipelago
