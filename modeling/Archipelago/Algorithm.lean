import Archipelago.Island

namespace Archipelago

/-- A search strategy.  It works on a population in place, with the same number of individuals
and bound to the same problem afterwards. -/
structure Algorithm (σ α : Type) [Scalar α] where
  name : String
  /-- Tells apart algorithms that differ in their parameters. -/
  identifier : String := name
  evolve : Action σ α Unit

namespace Algorithm

variable {σ α : Type} [Scalar α]

instance : ToString (Algorithm σ α) where
  toString := identifier

/-- Copies the best individual over the worst one. -/
def cloneBest [Extended α] (name : String) : Algorithm σ α where
  name := name
  evolve := do
    let population ← Island.getPopulation
    let (best, _) ← Island.require population.best
    let (_, slot) ← Island.require population.worst
    Island.substitute slot best

end Algorithm

end Archipelago
