import Archipelago.Scalar

namespace Archipelago

/-- States of a source of numbers, which are meant to lie in `[0, 1)`. -/
class Source (σ : Type) (α : outParam Type) where
  next : σ → α × σ

/-- A fixed sequence of numbers, repeated for ever. -/
structure Script (α : Type) where
  values : List α
  /-- How many numbers have been asked for. -/
  served : Nat := 0

namespace Script

variable {α : Type} [Scalar α]

/-- Largest number that a script may hold. -/
def ceiling : α :=
  0.9999999999999998

/-- Numbers outside the range of a source are moved to its ends.  No numbers at all stand for a
single zero. -/
def ofList (values : List α) : Script α :=
  match values with
  | [] => { values := [0] }
  | values => { values := values.map (Scalar.clamp 0 ceiling) }

def constant (value : α) : Script α :=
  ofList [value]

def next (script : Script α) : α × Script α :=
  (script.values.getD (script.served % script.values.length) 0,
    { script with served := script.served + 1 })

instance : Source (Script α) α where
  next := next

end Script

end Archipelago
