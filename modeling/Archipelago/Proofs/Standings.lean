import Archipelago.Proofs.CrowdingDistances
import Archipelago.Proofs.Layering
import Archipelago.Proofs.OrderedScalars
import Archipelago.Proofs.Scans

namespace Archipelago.Proofs.Standings

open CrowdingDistances
open Layering
open OrderedScalars
open Relation
open Scans

section Standings

variable {α : Type} [Scalar α]

/-- Slots in fronts, by how deeply they are dominated. -/
def fronts (problem : Problem α) (individuals : List (Individual α)) : List (List Nat) :=
  (Ranking.sort individuals.length (preferenceBetween problem individuals)).fronts

def rank (problem : Problem α) (individuals : List (Individual α)) (i : Nat) : Nat :=
  (Ranking.sort individuals.length (preferenceBetween problem individuals)).ranks.getD i 0

def crowding [Extended α] (problem : Problem α) (individuals : List (Individual α)) (i : Nat) : α :=
  (Crowding.byFront (individuals.map Individual.fitness) (fronts problem individuals)).getD i 0

def standing [Extended α] (problem : Problem α) (individuals : List (Individual α)) (i : Nat) :
    Standing α :=
  ⟨rank problem individuals i, crowding problem individuals i⟩

section Lists

variable [Extended α] {problem : Problem α} {individuals : List (Individual α)}

theorem standings_length : (standings problem individuals).length = individuals.length := by
  rw [standings, List.length_zipWith, byFront_length, (layered_sort _ _).ranks_length,
    List.length_map, Nat.min_self]

theorem standings_getElem? {i : Nat} (hi : i < individuals.length) :
    (standings problem individuals)[i]? = some (standing problem individuals i) := by
  have hranks : i < (Ranking.sort individuals.length
      (preferenceBetween problem individuals)).ranks.length := by
    rwa [(layered_sort _ _).ranks_length]
  have hcrowding : i < (Crowding.byFront (individuals.map Individual.fitness)
      (fronts problem individuals)).length := by
    rwa [byFront_length, List.length_map]
  rw [fronts] at hcrowding
  simp only [standings, standing, rank, crowding, fronts, List.getElem?_zipWith,
    List.getD_eq_getElem?_getD, List.getElem?_eq_getElem hranks,
    List.getElem?_eq_getElem hcrowding, Option.getD_some]

theorem zip_standings_getElem? {i : Nat} {individual : Individual α}
    (hi : individuals[i]? = some individual) :
    (individuals.zip (standings problem individuals))[i]? =
      some (individual, standing problem individuals i) :=
  List.getElem?_zip_eq_some.mpr ⟨hi, standings_getElem? (List.getElem?_eq_some_iff.mp hi).1⟩

end Lists

theorem ahead_iff {a b : Standing α} :
    a.ahead b = true ↔ a.rank < b.rank ∨ a.rank = b.rank ∧ b.crowding < a.crowding := by
  simp [Standing.ahead]

theorem behind_eq (a b : Standing α) : a.behind b = b.ahead a := by
  simp only [Standing.behind, Standing.ahead, eq_comm]

theorem rank_le_of_not_ahead {a b : Standing α} (h : a.ahead b = false) : b.rank ≤ a.rank := by
  rw [Bool.eq_false_iff, Ne, ahead_iff, not_or] at h
  exact Nat.le_of_not_lt h.1

theorem rank_le_of_not_behind {a b : Standing α} (h : a.behind b = false) : a.rank ≤ b.rank :=
  rank_le_of_not_ahead (behind_eq a b ▸ h)

section Order

variable [OrderedScalar α] {entries : List (Individual α × Standing α)}

theorem strictOn_ahead : StrictOn (fun a b => a.2.ahead b.2) entries := by
  constructor
  · intro x _
    rw [Bool.eq_false_iff, Ne, ahead_iff]
    rintro (h | ⟨-, h⟩)
    · exact Nat.lt_irrefl _ h
    · exact OrderedScalar.lt_irrefl _ h
  · intro x _ y _ z _ hxy hyz
    rw [ahead_iff] at *
    rcases hxy with hxy | ⟨hxy, hcrowding⟩
    · rcases hyz with hyz | ⟨hyz, -⟩
      · exact .inl (hxy.trans hyz)
      · exact .inl (hyz ▸ hxy)
    · rcases hyz with hyz | ⟨hyz, hcrowding'⟩
      · exact .inl (hxy ▸ hyz)
      · exact .inr ⟨hxy.trans hyz, OrderedScalar.lt_trans hcrowding' hcrowding⟩

theorem strictOn_behind : StrictOn (fun a b => a.2.behind b.2) entries := by
  simp only [behind_eq]
  exact strictOn_ahead.flip

theorem weakOn_ahead (hdefined : ∀ entry ∈ entries, entry.2.crowding ≤ entry.2.crowding) :
    WeakOn (fun a b => a.2.ahead b.2) entries := by
  refine ⟨strictOn_ahead, ?_⟩
  intro x _ y hy z _ hxz
  simp only [ahead_iff] at *
  rcases hxz with hrank | ⟨hrank, hcrowding⟩
  · rcases Nat.lt_or_ge x.2.rank y.2.rank with h | h
    · exact .inl (.inl h)
    · exact .inr (.inl (Nat.lt_of_le_of_lt h hrank))
  · rcases Nat.lt_trichotomy x.2.rank y.2.rank with h | h | h
    · exact .inl (.inl h)
    · rcases OrderedScalar.lt_or_lt (hdefined y hy) hcrowding with hcrowding | hcrowding
      · exact .inr (.inr ⟨h.symm.trans hrank, hcrowding⟩)
      · exact .inl (.inr ⟨h, hcrowding⟩)
    · exact .inr (.inl (hrank ▸ h))

theorem weakOn_behind (hdefined : ∀ entry ∈ entries, entry.2.crowding ≤ entry.2.crowding) :
    WeakOn (fun a b => a.2.behind b.2) entries := by
  simp only [behind_eq]
  exact (weakOn_ahead hdefined).flip

end Order

/-- The first one of some individuals whose standing none beats, and its slot. -/
def firstByStanding [Extended α] (beats : Standing α → Standing α → Bool) (problem : Problem α)
    (individuals : List (Individual α)) : Option (Individual α × Nat) :=
  (firstBest (fun a b => beats a.2 b.2) (individuals.zip (standings problem individuals))).map
    fun found => (found.1.1, found.2)

section First

variable [Extended α] {problem : Problem α} {individuals : List (Individual α)}
  {beats : Standing α → Standing α → Bool}

theorem firstByStanding_eq_none_iff :
    firstByStanding beats problem individuals = none ↔ individuals = [] := by
  rw [firstByStanding, Option.map_eq_none_iff, firstBest_eq_none_iff, ← List.length_eq_zero_iff,
    List.length_zip, standings_length, Nat.min_self, List.length_eq_zero_iff]

variable {found : Individual α} {slot : Nat}
  (hfound : firstByStanding beats problem individuals = some (found, slot))

include hfound

theorem firstByStanding_getElem? :
    individuals[slot]? = some found ∧
      firstBest (fun a b => beats a.2 b.2) (individuals.zip (standings problem individuals)) =
        some ((found, standing problem individuals slot), slot) := by
  obtain ⟨⟨⟨individual, place⟩, i⟩, hfirst, heq⟩ := Option.map_eq_some_iff.mp hfound
  obtain ⟨rfl, rfl⟩ := Prod.mk.inj heq
  obtain ⟨hindividual, hplace⟩ := List.getElem?_zip_eq_some.mp (firstBest_getElem? hfirst)
  have hi := (List.getElem?_eq_some_iff.mp hindividual).1
  obtain rfl := Option.some.inj (hplace.symm.trans (standings_getElem? hi))
  exact ⟨hindividual, hfirst⟩

theorem firstByStanding_not_beaten
    (hstrict : StrictOn (fun a b => beats a.2 b.2)
      (individuals.zip (standings problem individuals)))
    {i : Nat} (hi : i < individuals.length) :
    beats (standing problem individuals i) (standing problem individuals slot) = false :=
  firstBest_not_beaten (firstByStanding_getElem? hfound).2 hstrict _
    (List.mem_of_getElem? (zip_standings_getElem? (List.getElem?_eq_getElem hi)))

theorem firstByStanding_beats_earlier
    (hweak : WeakOn (fun a b => beats a.2 b.2) (individuals.zip (standings problem individuals)))
    {i : Nat} (hi : i < slot) :
    beats (standing problem individuals slot) (standing problem individuals i) = true := by
  obtain ⟨hslot, hfirst⟩ := firstByStanding_getElem? hfound
  have hlt := (List.getElem?_eq_some_iff.mp hslot).1
  have hentry : ((individuals.zip (standings problem individuals)).take slot)[i]? =
      some (individuals[i], standing problem individuals i) := by
    rw [List.getElem?_take_of_lt hi]
    exact zip_standings_getElem? (List.getElem?_eq_getElem (hi.trans hlt))
  exact firstBest_beats_earlier hfirst hweak _ (List.mem_of_getElem? hentry)

end First

end Standings

section Ranked

variable {α : Type} [Scalar α] {problem : Problem α} {individuals : List (Individual α)}

/-- The individual in one slot is preferred over the one in another slot. -/
def PreferredSlot (problem : Problem α) (individuals : List (Individual α)) (i j : Nat) : Prop :=
  ∃ a b, individuals[i]? = some a ∧ individuals[j]? = some b ∧ a.isPreferredOver problem b = true

theorem PreferredSlot.left_lt {i j : Nat} (h : PreferredSlot problem individuals i j) :
    i < individuals.length := by
  obtain ⟨a, -, ha, -⟩ := h
  exact (List.getElem?_eq_some_iff.mp ha).1

theorem PreferredSlot.right_lt {i j : Nat} (h : PreferredSlot problem individuals i j) :
    j < individuals.length := by
  obtain ⟨-, b, -, hb, -⟩ := h
  exact (List.getElem?_eq_some_iff.mp hb).1

theorem preferredSlot_of_dominates {i j : Nat}
    (h : Dominates individuals.length (preferenceBetween problem individuals) i j) :
    PreferredSlot problem individuals i j := by
  rcases h with ⟨h, -, -⟩ | ⟨h, -, -⟩
  · rw [preferenceBetween] at h
    split at h
    case h_1 a b ha hb =>
      split_ifs at h with hab
      exact ⟨a, b, ha, hb, hab⟩
    case h_2 => contradiction
  · rw [preferenceBetween] at h
    split at h
    case h_1 a b ha hb =>
      split_ifs at h with hab hba
      exact ⟨b, a, hb, ha, hba⟩
    case h_2 => contradiction

variable (hstrict : StrictOn (fun a b => Individual.isPreferredOver problem a b) individuals)

include hstrict

theorem dominates_of_preferredSlot {i j : Nat} (h : PreferredSlot problem individuals i j) :
    Dominates individuals.length (preferenceBetween problem individuals) i j := by
  obtain ⟨a, b, ha, hb, hab⟩ := h
  have hi := (List.getElem?_eq_some_iff.mp ha).1
  have hj := (List.getElem?_eq_some_iff.mp hb).1
  rcases Nat.lt_trichotomy i j with hlt | rfl | hlt
  · exact .inl ⟨by simp only [preferenceBetween, ha, hb, hab, if_true], hlt, hj⟩
  · have hself := hstrict.irrefl a (List.mem_of_getElem? ha)
    rw [Option.some.inj (ha.symm.trans hb)] at hself hab
    rw [hself] at hab
    contradiction
  · have hba := hstrict.asymm (List.mem_of_getElem? ha) (List.mem_of_getElem? hb) hab
    refine .inr ⟨?_, hlt, hi⟩
    simp only [preferenceBetween, ha, hb, hab, hba, if_true, Bool.false_eq_true, if_false]

theorem preferredSlot_of_transGen {i j : Nat}
    (h : TransGen (Dominates individuals.length (preferenceBetween problem individuals)) i j) :
    PreferredSlot problem individuals i j := by
  induction h with
  | single h => exact preferredSlot_of_dominates h
  | tail _ h ih =>
      obtain ⟨a, b, ha, hb, hab⟩ := ih
      obtain ⟨b', c, hb', hc, hbc⟩ := preferredSlot_of_dominates h
      obtain rfl := Option.some.inj (hb.symm.trans hb')
      exact ⟨a, c, ha, hc, hstrict.trans a (List.mem_of_getElem? ha) b (List.mem_of_getElem? hb) c
        (List.mem_of_getElem? hc) hab hbc⟩

/-- No individual is below a cycle, so every one of them is in a front. -/
theorem mem_fronts_of_lt {i : Nat} (hi : i < individuals.length) :
    i ∈ (fronts problem individuals).flatten := by
  apply ((layered_sort _ _).mem_fronts_iff i hi).mpr
  rintro ⟨c, -, hcycle⟩
  obtain ⟨a, b, ha, hb, hab⟩ := preferredSlot_of_transGen hstrict hcycle
  obtain rfl := Option.some.inj (ha.symm.trans hb)
  rw [hstrict.irrefl a (List.mem_of_getElem? ha)] at hab
  contradiction

theorem layered_preferredSlot :
    Layered individuals.length (PreferredSlot problem individuals)
      (Ranking.sort individuals.length (preferenceBetween problem individuals)) := by
  have heq : Dominates individuals.length (preferenceBetween problem individuals) =
      PreferredSlot problem individuals := by
    funext i j
    exact propext ⟨preferredSlot_of_dominates, dominates_of_preferredSlot hstrict⟩
  rw [← heq]
  exact layered_sort _ _

theorem rank_lt_of_preferredSlot {i j : Nat} (h : PreferredSlot problem individuals i j) :
    rank problem individuals i < rank problem individuals j :=
  ((layered_preferredSlot hstrict).rank_lt (fun _ _ h => h.left_lt)
    (mem_fronts_of_lt hstrict h.right_lt) h).2

theorem not_preferred_of_rank_le {i j : Nat} {a b : Individual α} (ha : individuals[i]? = some a)
    (hb : individuals[j]? = some b)
    (hrank : rank problem individuals j ≤ rank problem individuals i) :
    a.isPreferredOver problem b = false := by
  rw [Bool.eq_false_iff]
  intro hpreferred
  have hlt := rank_lt_of_preferredSlot hstrict ⟨a, b, ha, hb, hpreferred⟩
  exact absurd hrank (Nat.not_le.mpr hlt)

end Ranked

end Archipelago.Proofs.Standings
