import Archipelago.Proofs.Standings
import Archipelago.Proofs.StrictPreference

namespace Archipelago.Proofs.Selection

open OrderedScalars
open Scans
open Standings
open StrictPreference

theorem strictOn_of_rankable {α : Type} [Scalar α] [OrderedScalar α] {problem : Problem α}
    {individuals : List (Individual α)} (hstandard : problem.preference = .standard)
    (h : ∀ individual ∈ individuals, Rankable problem.fitnessDimension individual.fitness) :
    StrictOn (fun a b => Individual.isPreferredOver problem a b) individuals := by
  constructor
  · intro x _
    exact isPreferredOver_irrefl hstandard x
  · intro x hx y hy z hz hxy hyz
    exact isPreferredOver_trans hstandard (h x hx) (h y hy) (h z hz) hxy hyz

variable {α : Type} [Scalar α] [Extended α] {problem : Problem α}
  {individuals : List (Individual α)}

theorem bestOf_of_single (hsingle : problem.fitnessDimension ≤ 1) :
    bestOf problem individuals = firstBest (fun a b => a.isPreferredOver problem b) individuals :=
  if_neg (Nat.not_lt.mpr hsingle)

theorem bestOf_of_several (hseveral : 1 < problem.fitnessDimension) :
    bestOf problem individuals = firstByStanding Standing.ahead problem individuals :=
  if_pos hseveral

theorem worstOf_of_several (hseveral : 1 < problem.fitnessDimension) :
    worstOf problem individuals = firstByStanding Standing.behind problem individuals :=
  if_pos hseveral

theorem worstOf_of_single (hsingle : problem.fitnessDimension ≤ 1) :
    worstOf problem individuals = firstBest (fun a b => b.isPreferredOver problem a) individuals :=
  if_neg (Nat.not_lt.mpr hsingle)

theorem bestOf_eq_none_iff : bestOf problem individuals = none ↔ individuals = [] := by
  rcases Nat.lt_or_ge 1 problem.fitnessDimension with hseveral | hsingle
  · rw [bestOf_of_several hseveral, firstByStanding_eq_none_iff]
  · rw [bestOf_of_single hsingle, firstBest_eq_none_iff]

theorem worstOf_eq_none_iff : worstOf problem individuals = none ↔ individuals = [] := by
  rcases Nat.lt_or_ge 1 problem.fitnessDimension with hseveral | hsingle
  · rw [worstOf_of_several hseveral, firstByStanding_eq_none_iff]
  · rw [worstOf_of_single hsingle, firstBest_eq_none_iff]

theorem bestOf_getElem? {best : Individual α} {i : Nat}
    (h : bestOf problem individuals = some (best, i)) : individuals[i]? = some best := by
  rcases Nat.lt_or_ge 1 problem.fitnessDimension with hseveral | hsingle
  · rw [bestOf_of_several hseveral] at h
    exact (firstByStanding_getElem? h).1
  · rw [bestOf_of_single hsingle] at h
    exact firstBest_getElem? h

theorem worstOf_getElem? {worst : Individual α} {i : Nat}
    (h : worstOf problem individuals = some (worst, i)) : individuals[i]? = some worst := by
  rcases Nat.lt_or_ge 1 problem.fitnessDimension with hseveral | hsingle
  · rw [worstOf_of_several hseveral] at h
    exact (firstByStanding_getElem? h).1
  · rw [worstOf_of_single hsingle] at h
    exact firstBest_getElem? h

/-- None of some individuals is preferred over the best one of them. -/
theorem bestOf_not_beaten [OrderedScalar α]
    (hstrict : StrictOn (fun a b => Individual.isPreferredOver problem a b) individuals)
    {best : Individual α} {i : Nat} (h : bestOf problem individuals = some (best, i)) :
    ∀ x ∈ individuals, x.isPreferredOver problem best = false := by
  have hbest := bestOf_getElem? h
  rcases Nat.lt_or_ge 1 problem.fitnessDimension with hseveral | hsingle
  · rw [bestOf_of_several hseveral] at h
    intro x hx
    obtain ⟨j, hj⟩ := List.mem_iff_getElem?.mp hx
    have hlt := (List.getElem?_eq_some_iff.mp hj).1
    exact not_preferred_of_rank_le hstrict hj hbest
      (rank_le_of_not_ahead (firstByStanding_not_beaten h strictOn_ahead hlt))
  · rw [bestOf_of_single hsingle] at h
    exact firstBest_not_beaten h hstrict

theorem worstOf_beats_none [OrderedScalar α]
    (hstrict : StrictOn (fun a b => Individual.isPreferredOver problem a b) individuals)
    {worst : Individual α} {i : Nat} (h : worstOf problem individuals = some (worst, i)) :
    ∀ x ∈ individuals, worst.isPreferredOver problem x = false := by
  have hworst := worstOf_getElem? h
  rcases Nat.lt_or_ge 1 problem.fitnessDimension with hseveral | hsingle
  · rw [worstOf_of_several hseveral] at h
    intro x hx
    obtain ⟨j, hj⟩ := List.mem_iff_getElem?.mp hx
    have hlt := (List.getElem?_eq_some_iff.mp hj).1
    exact not_preferred_of_rank_le hstrict hworst hj
      (rank_le_of_not_behind (firstByStanding_not_beaten h strictOn_behind hlt))
  · rw [worstOf_of_single hsingle] at h
    exact firstBest_not_beaten h hstrict.flip

variable {population : Population α}

theorem exists_best (h : population.individuals ≠ []) :
    ∃ individual slot, population.best = .ok (individual, slot) := by
  rw [Population.best]
  cases hbest : bestOf population.problem population.individuals with
  | none => exact absurd (bestOf_eq_none_iff.mp hbest) h
  | some found => exact ⟨found.1, found.2, rfl⟩

theorem exists_worst (h : population.individuals ≠ []) :
    ∃ individual slot, population.worst = .ok (individual, slot) := by
  rw [Population.worst]
  cases hworst : worstOf population.problem population.individuals with
  | none => exact absurd (worstOf_eq_none_iff.mp hworst) h
  | some found => exact ⟨found.1, found.2, rfl⟩

theorem bestOf_of_best {individual : Individual α} {slot : Nat}
    (h : population.best = .ok (individual, slot)) :
    bestOf population.problem population.individuals = some (individual, slot) := by
  rw [Population.best] at h
  split at h
  case h_1 found hfound =>
    cases h
    exact hfound
  case h_2 => contradiction

theorem worstOf_of_worst {individual : Individual α} {slot : Nat}
    (h : population.worst = .ok (individual, slot)) :
    worstOf population.problem population.individuals = some (individual, slot) := by
  rw [Population.worst] at h
  split at h
  case h_1 found hfound =>
    cases h
    exact hfound
  case h_2 => contradiction

theorem best_getElem? {individual : Individual α} {slot : Nat}
    (h : population.best = .ok (individual, slot)) :
    population.individuals[slot]? = some individual :=
  bestOf_getElem? (bestOf_of_best h)

end Archipelago.Proofs.Selection
