import Archipelago.Crowding
import Archipelago.Individual
import Archipelago.Ranking

namespace Archipelago

variable {α : Type}

/-- First entry of a list that no later one beats, where every entry is compared with the winner
so far only, and its position. -/
def firstBest {β : Type} (beats : β → β → Bool) : List β → Option (β × Nat)
  | [] => none
  | first :: rest =>
    some <|
      (rest.zipIdx 1).foldl (fun best entry => if beats entry.1 best.1 then entry else best)
        (first, 0)

/-- Where an individual stands among others if fitness gives only a partial order. -/
structure Standing (α : Type) where
  rank : Nat
  crowding : α

namespace Standing

variable [Scalar α]

/-- Less deeply dominated, or else more isolated. -/
def ahead (a b : Standing α) : Bool :=
  a.rank < b.rank ∨ a.rank = b.rank ∧ b.crowding < a.crowding

/-- More deeply dominated, or else less isolated. -/
def behind (a b : Standing α) : Bool :=
  b.rank < a.rank ∨ a.rank = b.rank ∧ a.crowding < b.crowding

end Standing

section Selection

variable [Scalar α]

/-- Preference between two individuals of a list. -/
def preferenceBetween (problem : Problem α) (individuals : List (Individual α)) (i j : Nat) :
    Dominance :=
  match individuals[i]?, individuals[j]? with
  | some a, some b =>
    if a.isPreferredOver problem b then .left
    else if b.isPreferredOver problem a then .right
    else .neither
  | _, _ => .neither

variable [Extended α]

def standings (problem : Problem α) (individuals : List (Individual α)) : List (Standing α) :=
  let ranking := Ranking.sort individuals.length (preferenceBetween problem individuals)
  let crowding := Crowding.byFront (individuals.map Individual.fitness) ranking.fronts
  ranking.ranks.zipWith Standing.mk crowding

/-- Best of some individuals and its position, the first one on ties.  With several objectives it
is judged by its standing. -/
def bestOf (problem : Problem α) (individuals : List (Individual α)) :
    Option (Individual α × Nat) :=
  if 1 < problem.fitnessDimension then
    (firstBest (fun a b => a.2.ahead b.2) (individuals.zip (standings problem individuals))).map
      fun found => (found.1.1, found.2)
  else firstBest (fun a b => a.isPreferredOver problem b) individuals

/-- Worst of some individuals and its position, the first one on ties. -/
def worstOf (problem : Problem α) (individuals : List (Individual α)) :
    Option (Individual α × Nat) :=
  if 1 < problem.fitnessDimension then
    (firstBest (fun a b => a.2.behind b.2) (individuals.zip (standings problem individuals))).map
      fun found => (found.1.1, found.2)
  else firstBest (fun a b => b.isPreferredOver problem a) individuals

end Selection

/-- Individuals in the order of their slots, and the problem that they are candidates for. -/
structure Population (α : Type) [Scalar α] where
  problem : Problem α
  individuals : List (Individual α) := []

namespace Population

variable [Scalar α]

def size (population : Population α) : Nat :=
  population.individuals.length

def isEmpty (population : Population α) : Bool :=
  population.individuals.isEmpty

def get? (population : Population α) (index : Nat) : Option (Individual α) :=
  population.individuals[index]?

/-- Both populations are bound to the same instance of a problem. -/
def sharesProblemWith (a b : Population α) : Bool :=
  a.problem.key = b.problem.key

def push (population : Population α) (individual : Individual α) : Population α :=
  { population with individuals := population.individuals ++ [individual] }

/-- Overwrites a slot, if it exists. -/
def set (population : Population α) (index : Nat) (individual : Individual α) : Population α :=
  { population with individuals := population.individuals.set index individual }

/-- The individual in a slot that has to exist. -/
def member (population : Population α) (index : Nat) : Except (Violation α) (Individual α) :=
  match population.get? index with
  | some individual => .ok individual
  | none => .error (.indexOutOfRange index population.size)

/-- Best individual and its slot. -/
def best [Extended α] (population : Population α) : Except (Violation α) (Individual α × Nat) :=
  match bestOf population.problem population.individuals with
  | some found => .ok found
  | none => .error .emptyPopulation

/-- Worst individual and its slot. -/
def worst [Extended α] (population : Population α) : Except (Violation α) (Individual α × Nat) :=
  match worstOf population.problem population.individuals with
  | some found => .ok found
  | none => .error .emptyPopulation

/-- Values of the single objective. -/
def scores (population : Population α) : Except (Violation α) (List α) :=
  if population.isEmpty then .error .emptyPopulation
  else if population.problem.fitnessDimension ≠ 1 then
    .error (.multiObjectiveStatistics population.problem.fitnessDimension)
  else .ok (population.individuals.map fun individual => individual.fitness.headD 0)

def meanFitness (population : Population α) : Except (Violation α) α := do
  let scores ← population.scores
  return Scalar.total scores / (scores.length : α)

/-- Standard deviation of the fitness values, as those of a whole population. -/
def deviationOfFitness [Elementary α] (population : Population α) : Except (Violation α) α := do
  let scores ← population.scores
  let mean ← population.meanFitness
  let squares := scores.map fun score => (score - mean) * (score - mean)
  return Elementary.sqrt (Scalar.total squares / (scores.length : α))

def text [Numeral α] (population : Population α) : String :=
  Text.record "Population"
    [("problem", Text.quoted population.problem.name),
      ("individuals", Text.list (population.individuals.map Individual.text))]

end Population

end Archipelago
