import Archipelago.Deme
import Archipelago.Island

namespace Archipelago

section Merging

variable {α : Type} [Scalar α]

/-- An arrival takes its slot if it is preferred over the individual there.  Counts the slots that
change hands. -/
def Population.compete (state : Population α × Nat) (arrival : Individual α × Nat) :
    Population α × Nat :=
  match state.1.get? arrival.2 with
  | some occupant =>
    if arrival.1.isPreferredOver state.1.problem occupant then
      (state.1.set arrival.2 arrival.1, state.2 + 1)
    else state
  | none => state

def Population.merge (population : Population α) (arrivals : List (Individual α × Nat)) :
    Population α × Nat :=
  arrivals.foldl compete (population, 0)

def Population.overwrite (population : Population α) (arrivals : List (Individual α × Nat)) :
    Population α :=
  arrivals.foldl (fun population arrival => population.set arrival.2 arrival.1) population

end Merging

namespace Island

variable {σ α : Type} [Scalar α]

section Extraction

variable [Source σ α]

/-- Draws `n` of the given slots, and leaves out what has been drawn before. -/
def drawPicks : (n : Nat) → (pool : List Nat) → StateM (Session σ α) (List Nat)
  | 0, _ => pure []
  | n + 1, pool => do
    let position ← Session.indexBelow pool.length
    let picks ← drawPicks n (pool.eraseIdx position)
    pure (pool.getD position 0 :: picks)

/-- A random sample of `n` individuals, without replacement. -/
def extractDeme (n : Nat) : Action σ α (Deme α) := do
  let population ← getPopulation
  if population.size < n then
    throw (.precondition (.demeTooLarge n population.size))
  let picks ← perform (drawPicks n (List.range population.size))
  perform (Session.report (.extracted n population.size))
  return { individuals := picks.filterMap population.get?, picks }

end Extraction

/-- Every migrant competes for its slot.  Returns the number of slots that change hands. -/
def insertDeme (deme : Deme α) : Action σ α Nat := do
  require (deme.check (← getPopulation))
  let (merged, replaced) := (← getPopulation).merge deme.arrivals
  update fun _ => merged
  perform (Session.report (.merged replaced deme.size))
  return replaced

/-- Every migrant takes its slot. -/
def insertDemeForced (deme : Deme α) : Action σ α Unit := do
  require (deme.check (← getPopulation))
  update (·.overwrite deme.arrivals)

/-- The best migrant takes the slot of the worst of the individuals that are picked.  Returns that
slot. -/
def insertBest [Extended α] (deme : Deme α) : Action σ α Nat := do
  let population ← getPopulation
  require (deme.check population)
  let occupants := deme.picks.filterMap population.get?
  match bestOf population.problem deme.individuals, worstOf population.problem occupants with
  | some (migrant, _), some (occupant, position) =>
    let slot := deme.picks.getD position 0
    unless migrant.isPreferredOver population.problem occupant do
      perform (Session.report (.regressed slot))
    update (·.set slot migrant)
    return slot
  | _, _ => throw (.precondition .emptyDeme)

end Island

end Archipelago
