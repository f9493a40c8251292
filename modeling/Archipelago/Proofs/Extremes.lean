import Archipelago.Proofs.Selection
import Mathlib.Order.Bounds.Basic

namespace Archipelago.Proofs.Extremes

open Chains
open CrowdingDistances
open Layering
open OrderedScalars
open Scans
open Selection
open Standings
open StrictPreference

section Depth

variable {α : Type} [Scalar α] {problem : Problem α} {individuals : List (Individual α)}

/-- The longest chain of members, each preferred over the next, that ends at a member has `k`
steps. -/
def AtDepth (problem : Problem α) (individuals : List (Individual α)) (k i : Nat) : Prop :=
  i < individuals.length ∧ LongestChain (PreferredSlot problem individuals) k i

/-- Fronts that collect the members of every depth in ascending order, and the crowding distances of
the members within these fronts. -/
structure Crowded [Extended α] (problem : Problem α) (individuals : List (Individual α))
    (fronts : List (List Nat)) (crowding : Nat → α) : Prop where
  mem_front_iff : ∀ k i, i ∈ fronts.getD k [] ↔ AtDepth problem individuals k i
  ascending : ∀ k, (fronts.getD k []).Pairwise (· < ·)
  crowding_eq : ∀ (k place i : Nat), (fronts.getD k [])[place]? = some i →
    (Crowding.ofFront ((fronts.getD k []).map fun i =>
      (individuals.map Individual.fitness).getD i []))[place]? = some (crowding i)

theorem getElem?_of_mem_getD {fronts : List (List Nat)} {k i : Nat} (hi : i ∈ fronts.getD k []) :
    fronts[k]? = some (fronts.getD k []) := by
  rw [List.getD_eq_getElem?_getD] at hi ⊢
  cases hfront : fronts[k]? with
  | none => simp [hfront] at hi
  | some front => rfl

variable (hstrict : StrictOn (fun a b => Individual.isPreferredOver problem a b) individuals)

include hstrict

theorem atDepth_iff {k i : Nat} :
    AtDepth problem individuals k i ↔ i < individuals.length ∧ rank problem individuals i = k := by
  refine and_congr_right fun hi => ?_
  exact ((layered_preferredSlot hstrict).rank_eq_iff i (mem_fronts_of_lt hstrict hi) k).symm

theorem crowded [Extended α] :
    Crowded problem individuals (fronts problem individuals) (crowding problem individuals) := by
  have hlayered := layered_preferredSlot hstrict
  constructor
  case mem_front_iff =>
    intro k i
    constructor
    · intro hmem
      have hfront := List.mem_of_getElem? (getElem?_of_mem_getD hmem)
      have hi := hlayered.lt_of_mem i (List.mem_flatten.mpr ⟨_, hfront, hmem⟩)
      exact ⟨hi, (hlayered.mem_front_iff i hi k).mp hmem⟩
    · rintro ⟨hi, hlongest⟩
      exact (hlayered.mem_front_iff i hi k).mpr hlongest
  case ascending =>
    intro k
    rw [List.getD_eq_getElem?_getD]
    cases hfront : (fronts problem individuals)[k]? with
    | none => exact List.Pairwise.nil
    | some front => exact hlayered.front_ascending front (List.mem_of_getElem? hfront)
  case crowding_eq =>
    intro k place i hplace
    have hmem := List.mem_of_getElem? hplace
    have hfront := List.mem_of_getElem? (getElem?_of_mem_getD hmem)
    have hi := hlayered.lt_of_mem i (List.mem_flatten.mpr ⟨_, hfront, hmem⟩)
    have hlength : i < (individuals.map Individual.fitness).length := by rwa [List.length_map]
    have hlength' : i < (Crowding.byFront (individuals.map Individual.fitness)
        (fronts problem individuals)).length := by
      rwa [byFront_length]
    rw [← byFront_of_mem hlayered.nodup hlength hfront hplace, crowding,
      List.getD_eq_getElem?_getD, ← fronts, List.getElem?_eq_getElem hlength', Option.getD_some]

theorem rank_eq_zero {slot : Nat} (hslot : slot < individuals.length)
    (hleast : ∀ i < individuals.length,
      rank problem individuals slot ≤ rank problem individuals i) :
    rank problem individuals slot = 0 := by
  by_contra hrank
  obtain ⟨i, hi, hsucc⟩ := (layered_preferredSlot hstrict).exists_rank_succ
    (fun _ _ h => h.left_lt) (mem_fronts_of_lt hstrict hslot) hrank
  have hle := hleast i hi.left_lt
  rw [rank, rank] at hle
  omega

/-- The first member by an order of standings that goes by crowding at equal ranks is the first one
of its rank that none of this rank exceeds. -/
theorem firstByStanding_isLeast [Extended α] {beats : Standing α → Standing α → Bool}
    (atMost : α → α → Prop)
    (hbeats : ∀ i < individuals.length, ∀ j < individuals.length,
      rank problem individuals i = rank problem individuals j →
      (beats (standing problem individuals i) (standing problem individuals j) = false ↔
        atMost (crowding problem individuals i) (crowding problem individuals j)))
    (hweak : WeakOn (fun a b => beats a.2 b.2) (individuals.zip (standings problem individuals)))
    {found : Individual α} {slot : Nat}
    (hfound : firstByStanding beats problem individuals = some (found, slot)) {k : Nat}
    (hdepth : AtDepth problem individuals k slot) :
    IsLeast { i | AtDepth problem individuals k i ∧ ∀ j, AtDepth problem individuals k j →
      atMost (crowding problem individuals j) (crowding problem individuals i) } slot := by
  have hrank : ∀ {i j : Nat}, AtDepth problem individuals k i → AtDepth problem individuals k j →
      rank problem individuals i = rank problem individuals j := by
    intro i j hi hj
    exact ((atDepth_iff hstrict).mp hi).2.trans ((atDepth_iff hstrict).mp hj).2.symm
  constructor
  · refine ⟨hdepth, fun j hj => ?_⟩
    exact (hbeats j hj.1 slot hdepth.1 (hrank hj hdepth)).mp
      (firstByStanding_not_beaten hfound hweak.toStrictOn hj.1)
  · rintro i ⟨hi, hmost⟩
    by_contra hlt
    have hearlier := firstByStanding_beats_earlier hfound hweak (Nat.lt_of_not_le hlt)
    have hnot := (hbeats slot hdepth.1 i hi.1 (hrank hdepth hi)).mpr (hmost slot hdepth)
    rw [hnot] at hearlier
    contradiction

end Depth

theorem not_lt_iff {x y : Binary64} (hx : x.isNaN = false) (hy : y.isNaN = false) :
    ¬x < y ↔ y ≤ x := by
  rw [lt_iff, le_iff]
  simp [hx, hy]

section Members

variable {problem : Problem Binary64} {individuals : List (Individual Binary64)}

/-- The members of a depth that are the farthest from their neighbours. -/
def mostIsolated (problem : Problem Binary64) (individuals : List (Individual Binary64))
    (k : Nat) : Set Nat :=
  { i | AtDepth problem individuals k i ∧ ∀ j, AtDepth problem individuals k j →
    crowding problem individuals j ≤ crowding problem individuals i }

/-- The members of a depth that are the closest to their neighbours. -/
def leastIsolated (problem : Problem Binary64) (individuals : List (Individual Binary64))
    (k : Nat) : Set Nat :=
  { i | AtDepth problem individuals k i ∧ ∀ j, AtDepth problem individuals k j →
    crowding problem individuals i ≤ crowding problem individuals j }

theorem crowding_le_self
    (hdefined : ∀ i < individuals.length, (crowding problem individuals i).isNaN = false) :
    ∀ entry ∈ individuals.zip (standings problem individuals),
      entry.2.crowding ≤ entry.2.crowding := by
  rintro ⟨individual, place⟩ hentry
  obtain ⟨i, hi⟩ := List.mem_iff_getElem?.mp hentry
  obtain ⟨hindividual, hplace⟩ := List.getElem?_zip_eq_some.mp hi
  have hlt := (List.getElem?_eq_some_iff.mp hindividual).1
  obtain rfl := Option.some.inj (hplace.symm.trans (standings_getElem? hlt))
  exact le_self_iff.mpr (hdefined i hlt)

variable (hseveral : 1 < problem.fitnessDimension)
  (hstrict : StrictOn (fun a b => Individual.isPreferredOver problem a b) individuals)

include hseveral hstrict

theorem best_standing {best : Individual Binary64} {slot : Nat}
    (h : bestOf problem individuals = some (best, slot)) :
    AtDepth problem individuals 0 slot ∧
      ((∀ i < individuals.length, (crowding problem individuals i).isNaN = false) →
        IsLeast (mostIsolated problem individuals 0) slot) := by
  have hslot := (List.getElem?_eq_some_iff.mp (bestOf_getElem? h)).1
  rw [bestOf_of_several hseveral] at h
  have hrank : rank problem individuals slot = 0 := rank_eq_zero hstrict hslot fun i hi =>
    rank_le_of_not_ahead (firstByStanding_not_beaten h strictOn_ahead hi)
  have hdepth := (atDepth_iff hstrict).mpr ⟨hslot, hrank⟩
  refine ⟨hdepth, fun hdefined => ?_⟩
  refine firstByStanding_isLeast hstrict (· ≤ ·) ?_ (weakOn_ahead (crowding_le_self hdefined)) h
    hdepth
  intro i hi j hj hrank
  rw [Bool.eq_false_iff, Ne, ahead_iff]
  simp only [standing, hrank, Nat.lt_irrefl, false_or, true_and]
  exact not_lt_iff (hdefined j hj) (hdefined i hi)

theorem worst_standing {worst : Individual Binary64} {slot : Nat}
    (h : worstOf problem individuals = some (worst, slot)) :
    individuals[slot]? = some worst ∧
      (∀ x ∈ individuals, worst.isPreferredOver problem x = false) ∧
      AtDepth problem individuals (rank problem individuals slot) slot ∧
      (∀ i < individuals.length, rank problem individuals i ≤ rank problem individuals slot) ∧
      ((∀ i < individuals.length, (crowding problem individuals i).isNaN = false) →
        IsLeast (leastIsolated problem individuals (rank problem individuals slot)) slot) := by
  rw [worstOf_of_several hseveral] at h
  have hworst := (firstByStanding_getElem? h).1
  have hslot := (List.getElem?_eq_some_iff.mp hworst).1
  have hmost : ∀ i < individuals.length,
      rank problem individuals i ≤ rank problem individuals slot := fun i hi =>
    rank_le_of_not_behind (firstByStanding_not_beaten h strictOn_behind hi)
  have hdepth := (atDepth_iff hstrict).mpr ⟨hslot, rfl⟩
  refine ⟨hworst, ?_, hdepth, hmost, ?_⟩
  · intro x hx
    obtain ⟨i, hi⟩ := List.mem_iff_getElem?.mp hx
    exact not_preferred_of_rank_le hstrict hworst hi
      (hmost i (List.getElem?_eq_some_iff.mp hi).1)
  · intro hdefined
    refine firstByStanding_isLeast hstrict (fun x y => y ≤ x) ?_
      (weakOn_behind (crowding_le_self hdefined)) h hdepth
    intro i hi j hj hrank
    rw [behind_eq, Bool.eq_false_iff, Ne, ahead_iff]
    simp only [standing, hrank, Nat.lt_irrefl, false_or, true_and]
    exact not_lt_iff (hdefined i hi) (hdefined j hj)

end Members

section Population

variable {population : Population Binary64}

/-- No member is preferred over the best one, which has depth zero.  The worst one is preferred over
no member and has the greatest depth.  If all crowding distances are defined, then they are the
first of the most and of the least isolated members of their depths. -/
theorem best_and_worst_by_standing
    (hstandard : population.problem.preference = .standard)
    (hseveral : 1 < population.problem.fitnessDimension)
    (hfitness : ∀ individual ∈ population.individuals,
      individual.fitness.length = population.problem.fitnessDimension ∧
        ∀ x ∈ individual.fitness, x.isNaN = false)
    (hne : population.individuals ≠ []) :
    ∃ best slot worst slot' depth,
      population.best = .ok (best, slot) ∧ population.get? slot = some best ∧
      population.worst = .ok (worst, slot') ∧ population.get? slot' = some worst ∧
      (∀ x ∈ population.individuals, x.isPreferredOver population.problem best = false) ∧
      (∀ x ∈ population.individuals, worst.isPreferredOver population.problem x = false) ∧
      AtDepth population.problem population.individuals 0 slot ∧
      AtDepth population.problem population.individuals depth slot' ∧
      (∀ i < population.size, ∃ k ≤ depth,
        AtDepth population.problem population.individuals k i) ∧
      Crowded population.problem population.individuals
        (fronts population.problem population.individuals)
        (crowding population.problem population.individuals) ∧
      ((∀ i < population.size,
          (crowding population.problem population.individuals i).isNaN = false) →
        IsLeast (mostIsolated population.problem population.individuals 0) slot ∧
        IsLeast (leastIsolated population.problem population.individuals depth) slot') := by
  have hstrict := strictOn_of_rankable hstandard fun individual hmem =>
    ⟨(hfitness individual hmem).1, .inr (allDefined_iff.mpr (hfitness individual hmem).2)⟩
  obtain ⟨best, slot, hbest⟩ := exists_best hne
  obtain ⟨worst, slot', hworst⟩ := exists_worst hne
  obtain ⟨hdepth, hleast⟩ := best_standing hseveral hstrict (bestOf_of_best hbest)
  obtain ⟨hget, hnone, hdepth', hgreatest, hleast'⟩ :=
    worst_standing hseveral hstrict (worstOf_of_worst hworst)
  refine ⟨best, slot, worst, slot', _, hbest, best_getElem? hbest, hworst, hget,
    bestOf_not_beaten hstrict (bestOf_of_best hbest), hnone, hdepth, hdepth', ?_, crowded hstrict,
    fun hdefined => ⟨hleast hdefined, hleast' hdefined⟩⟩
  intro i hi
  exact ⟨_, hgreatest i hi, (atDepth_iff hstrict).mpr ⟨hi, rfl⟩⟩

end Population

/-- Decisions in a square are their own objectives. -/
def square : Problem Binary64 where
  lower := [0, 0]
  upper := [1, 1]
  fitnessDimension := 2
  objective := fun decision => decision

/-- Three corners of the square, of which the first two dominate the last one. -/
def corners : Population Binary64 where
  problem := square
  individuals := [[0, 1], [1, 0], [1, 1]].map fun decision =>
    { decision, velocity := [0, 0], fitness := decision, constraints := [] }

theorem corners_best_and_worst :
    (∃ best, corners.best = .ok (best, 0)) ∧ ∃ worst, corners.worst = .ok (worst, 2) := by
  obtain ⟨best, slot, worst, slot', depth, hbest, -, hworst, -, -, -, -, hdepth, hdeepest,
    hcrowded, hisolated⟩ := @best_and_worst_by_standing corners rfl (by decide) (by decide +kernel)
      (List.cons_ne_nil _ _)
  have hfronts : fronts corners.problem corners.individuals = [[0, 1], [2]] := by decide +kernel
  rw [hfronts] at hcrowded
  constructor
  · have hdefined : ∀ i < corners.size,
        (crowding corners.problem corners.individuals i).isNaN = false := by decide +kernel
    have hatMost : ∀ i < corners.size, crowding corners.problem corners.individuals i ≤
        crowding corners.problem corners.individuals 0 := by decide +kernel
    have hfirst := (hcrowded.mem_front_iff 0 0).mp (by decide)
    have hle : slot ≤ 0 := (hisolated hdefined).1.2 ⟨hfirst, fun i hi => hatMost i hi.1⟩
    exact ⟨best, Nat.le_zero.mp hle ▸ hbest⟩
  · obtain ⟨k, hk, hlast⟩ := hdeepest 2 (by decide)
    have hlast := (hcrowded.mem_front_iff k 2).mpr hlast
    have hmem := (hcrowded.mem_front_iff depth slot').mpr hdepth
    rcases depth with _ | _ | depth
    · obtain rfl := Nat.le_zero.mp hk
      exact absurd hlast (by decide)
    · obtain rfl := List.mem_singleton.mp hmem
      exact ⟨worst, hworst⟩
    · exact absurd hmem List.not_mem_nil

end Archipelago.Proofs.Extremes
