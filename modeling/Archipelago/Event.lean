import Archipelago.Text

namespace Archipelago

/-- Something worth telling about an operation that succeeds. -/
inductive Event (α : Type) where
  | created (individuals : Nat) (problem : String)
  | extracted (picks size : Nat)
  | merged (replaced slots : Nat)
  /-- A migrant overwrites an individual that it is not preferred over. -/
  | regressed (slot : Nat)
  | annealingStarted (algorithm : String) (stages : Nat) (fitness : α) (problem : String)
  | stageDone (algorithm : String) (stage : Nat) (temperature fitness : α)
  | annealingFinished (algorithm : String) (evaluations accepted : Nat) (improved : Bool)
deriving DecidableEq

inductive Level where
  | trace
  | debug
  | warn
deriving DecidableEq

def Level.name : Level → String
  | .trace => "TRACE"
  | .debug => "DEBUG"
  | .warn => "WARN"

namespace Event

variable {α : Type}

def level : Event α → Level
  | .regressed _ => .warn
  | .stageDone .. => .trace
  | _ => .debug

section Messages

variable [Numeral α]

open Numeral (plain sixPlaces)

def message : Event α → String
  | .created individuals problem => s!"created {individuals} random individuals for {problem}"
  | .extracted picks size => s!"extracted deme of {picks} from population of {size}"
  | .merged replaced slots => s!"deme insertion replaced {replaced} of {slots} slots"
  | .regressed slot => s!"migrant replacing slot {slot} is not better than its occupant"
  | .annealingStarted algorithm stages fitness problem =>
    s!"{algorithm}: {stages} stages from fitness {plain fitness} on {problem}"
  | .stageDone algorithm stage temperature fitness =>
    s!"{algorithm}: stage {stage} done, T = {sixPlaces temperature}, fitness = {plain fitness}"
  | .annealingFinished algorithm evaluations accepted improved =>
    s!"{algorithm}: finished, {evaluations} evaluations, {accepted} accepted, " ++
      s!"improved = {improved}"

def text (event : Event α) : String :=
  event.level.name ++ " " ++ event.message

end Messages

end Event

end Archipelago
