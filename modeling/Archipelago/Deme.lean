import Archipelago.Population

namespace Archipelago

/-- Individuals on their way, and the slots that they were taken from or are bound for. -/
structure Deme (α : Type) where
  individuals : List (Individual α)
  picks : List Nat
deriving BEq

namespace Deme

variable {α : Type}

def size (deme : Deme α) : Nat :=
  deme.individuals.length

def isEmpty (deme : Deme α) : Bool :=
  deme.individuals.isEmpty

/-- Individuals with their slots. -/
def arrivals (deme : Deme α) : List (Individual α × Nat) :=
  deme.individuals.zip deme.picks

/-- Every pick has to be a slot of a population of the given size, and none may come twice.  `seen`
holds the picks before those of the list. -/
def checkPicks (size : Nat) : (seen picks : List Nat) → Except (Violation α) Unit
  | _, [] => .ok ()
  | seen, pick :: picks =>
    if size ≤ pick then .error (.indexOutOfRange pick size)
    else if pick ∈ seen then .error (.duplicatePick pick)
    else checkPicks size (pick :: seen) picks

/-- Checks that a deme can be merged into a population. -/
def check [Scalar α] (deme : Deme α) (population : Population α) : Except (Violation α) Unit := do
  if deme.individuals.length ≠ deme.picks.length then
    throw (.demeLengthMismatch deme.individuals.length deme.picks.length)
  checkPicks population.size [] deme.picks
  deme.individuals.forM (Individual.checkShape population.problem)

end Deme

end Archipelago
