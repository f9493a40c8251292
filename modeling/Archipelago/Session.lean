import Archipelago.Event
import Archipelago.Problem
import Archipelago.Source

namespace Archipelago

/-- A use that is made of the functions of a problem. -/
inductive Call (α : Type) where
  | objective (decision : List α)
  | constraints (decision : List α)
deriving DecidableEq

/-- What operations share while they run: the source they draw from, and a record of what they
did.  The lists of the record have their latest entry first. -/
structure Session (σ α : Type) where
  source : σ
  draws : Nat := 0
  calls : List (Call α) := []
  /-- Keys of the problems with metered evaluations, one entry for each evaluation. -/
  meter : List Nat := []
  events : List (Event α) := []

namespace Session

variable {σ α : Type}

/-- Number of metered evaluations of a problem. -/
def evaluations (session : Session σ α) (key : Nat) : Nat :=
  session.meter.count key

def report (event : Event α) : StateM (Session σ α) Unit :=
  modify fun session => { session with events := event :: session.events }

variable [Scalar α]

def objective (problem : Problem α) (decision : List α) : StateM (Session σ α) (List α) :=
  fun session =>
    (problem.objective decision,
      { session with
        calls := .objective decision :: session.calls
        meter := if problem.counted then problem.key :: session.meter else session.meter })

def constraints (problem : Problem α) (decision : List α) : StateM (Session σ α) (List α) :=
  fun session =>
    (problem.constraints decision,
      { session with calls := .constraints decision :: session.calls })

variable [Source σ α]

def uniform : StateM (Session σ α) α :=
  fun session =>
    let (value, source) := Source.next session.source
    (value, { session with source, draws := session.draws + 1 })

/-- Draws a number below `n`, which must not be zero.  A source that leaves its range cannot lead
out of that of the result. -/
def indexBelow (n : Nat) : StateM (Session σ α) Nat := do
  let u ← uniform
  pure (min (Scalar.truncate (u * (n : α))) (n - 1))

end Session

end Archipelago
