import Archipelago.Proofs.Merging
import Archipelago.Proofs.Runs
import Mathlib.Data.Set.Lattice
import Mathlib.Order.CompletePartialOrder

/-!
Merging a deme reads and writes nothing but the slots that are picked, so that demes with different
picks can be merged in any order.
-/

namespace Archipelago.Proofs.Independence

open Actions
open Merging
open Runs
open Selection

variable {ε σ α β γ : Type} [Scalar α]

/-- Populations of the same problem and size that hold the same individuals in some slots. -/
structure AgreeOn (slots : Set Nat) (p q : Population α) : Prop where
  problem_eq : p.problem = q.problem
  size_eq : p.size = q.size
  slot_eq : ∀ slot ∈ slots, p.individuals[slot]? = q.individuals[slot]?

section Agreement

variable {slots : Set Nat} {p q r : Population α}

theorem AgreeOn.refl (slots : Set Nat) (p : Population α) : AgreeOn slots p p :=
  ⟨rfl, rfl, fun _ _ => rfl⟩

theorem AgreeOn.symm (h : AgreeOn slots p q) : AgreeOn slots q p :=
  ⟨h.problem_eq.symm, h.size_eq.symm, fun slot hslot => (h.slot_eq slot hslot).symm⟩

theorem AgreeOn.trans (hpq : AgreeOn slots p q) (hqr : AgreeOn slots q r) : AgreeOn slots p r :=
  ⟨hpq.problem_eq.trans hqr.problem_eq, hpq.size_eq.trans hqr.size_eq,
    fun slot hslot => (hpq.slot_eq slot hslot).trans (hqr.slot_eq slot hslot)⟩

theorem AgreeOn.mono {others : Set Nat} (h : AgreeOn slots p q) (hsubset : others ⊆ slots) :
    AgreeOn others p q :=
  ⟨h.problem_eq, h.size_eq, fun slot hslot => h.slot_eq slot (hsubset hslot)⟩

theorem agreeOn_set_right {slot : Nat} (hslot : slot ∉ slots) (p : Population α)
    (individual : Individual α) : AgreeOn slots p (p.set slot individual) where
  problem_eq := rfl
  size_eq := List.length_set.symm
  slot_eq other hother := by
    have hne : slot ≠ other := fun h => hslot (h ▸ hother)
    exact (List.getElem?_set_ne hne).symm

theorem AgreeOn.set (h : AgreeOn slots p q) (slot : Nat) (individual : Individual α) :
    AgreeOn slots (p.set slot individual) (q.set slot individual) where
  problem_eq := h.problem_eq
  size_eq := by
    rw [Population.size, Population.size, Population.set, Population.set, List.length_set,
      List.length_set]
    exact h.size_eq
  slot_eq other hother := by
    rw [Population.set, Population.set]
    by_cases heq : slot = other
    · rw [heq, List.getElem?_set_self', List.getElem?_set_self', h.slot_eq other hother]
    · rw [List.getElem?_set_ne heq, List.getElem?_set_ne heq]
      exact h.slot_eq other hother

theorem AgreeOn.check_eq (h : AgreeOn slots p q) (deme : Deme α) : deme.check p = deme.check q := by
  rw [Deme.check, Deme.check, h.problem_eq, h.size_eq]

theorem AgreeOn.occupants_eq (h : AgreeOn slots p q) {picks : List Nat}
    (hpicks : ∀ pick ∈ picks, pick ∈ slots) : picks.filterMap p.get? = picks.filterMap q.get? :=
  List.filterMap_congr fun pick hpick => h.slot_eq pick (hpicks pick hpick)

theorem AgreeOn.union {others : Set Nat} (h : AgreeOn slots p q) (hothers : AgreeOn others p q) :
    AgreeOn (slots ∪ others) p q where
  problem_eq := h.problem_eq
  size_eq := h.size_eq
  slot_eq slot hslot := hslot.elim (h.slot_eq slot) (hothers.slot_eq slot)

theorem AgreeOn.eq (h : AgreeOn Set.univ p q) : p = q := by
  have hindividuals : p.individuals = q.individuals :=
    List.ext_getElem? fun slot => h.slot_eq slot (Set.mem_univ slot)
  cases p
  cases q
  congr 1
  exact h.problem_eq

end Agreement

def outcome : EStateM.Result ε σ β → Except ε β
  | .ok value _ => .ok value
  | .error cause _ => .error cause

theorem exists_ok_of_outcome {result : EStateM.Result ε σ β} {value : β}
    (h : outcome result = .ok value) : ∃ state, result = .ok value state := by
  cases result with
  | ok found state =>
      cases h
      exact ⟨state, rfl⟩
  | error => contradiction

/-- An action that leaves all but some slots alone, and that depends on nothing else in a population
of a given problem and size. -/
structure Confined (slots : Set Nat) (action : Action σ α β) : Prop where
  leaves : ∀ island, AgreeOn slotsᶜ island.population (after (action island)).population
  reads : ∀ island other : Island σ α, AgreeOn slots island.population other.population →
    outcome (action island) = outcome (action other) ∧
      AgreeOn slots (after (action island)).population (after (action other)).population

theorem outcome_return (attempt : Attempt ε σ β) (f : β → γ) (state : σ) :
    outcome ((do return f (← attempt) : Attempt ε σ γ) state) =
      (outcome (attempt state)).map f := by
  rw [bind_apply]
  cases attempt state with
  | ok => rfl
  | error => rfl

theorem Confined.map {slots : Set Nat} {action : Action σ α β} (h : Confined slots action)
    (f : β → γ) : Confined slots (do return f (← action) : Action σ α γ) where
  leaves island := by
    rw [after_return]
    exact h.leaves island
  reads island other hagree := by
    obtain ⟨houtcome, hafter⟩ := h.reads island other hagree
    rw [outcome_return, outcome_return, after_return, after_return, houtcome]
    exact ⟨rfl, hafter⟩

section Commuting

variable {slots others : Set Nat} {f : Action σ α β} {g : Action σ α γ}

theorem Confined.outcome_after (hf : Confined slots f) (hg : Confined others g)
    (hdisjoint : Disjoint slots others) (island : Island σ α) :
    outcome (f (after (g island))) = outcome (f island) ∧
      AgreeOn slots (after (f (after (g island)))).population (after (f island)).population := by
  have hleft := (hg.leaves island).mono hdisjoint.subset_compl_right
  obtain ⟨hsame, hagree⟩ := hf.reads island (after (g island)) hleft
  exact ⟨hsame.symm, hagree.symm⟩

theorem Confined.leaves_both (hf : Confined slots f) (hg : Confined others g)
    (island : Island σ α) :
    AgreeOn (slots ∪ others)ᶜ island.population (after (g (after (f island)))).population := by
  rw [Set.compl_union]
  exact ((hf.leaves island).mono Set.inter_subset_left).trans
    ((hg.leaves (after (f island))).mono Set.inter_subset_right)

/-- Actions that are confined to different slots commute. -/
theorem Confined.commute (hf : Confined slots f) (hg : Confined others g)
    (hdisjoint : Disjoint slots others) (island : Island σ α) :
    (after (g (after (f island)))).population = (after (f (after (g island)))).population := by
  let first := after (f island)
  let second := after (g island)
  have hslots : AgreeOn slots (after (g first)).population (after (f second)).population :=
    ((hg.leaves first).mono hdisjoint.subset_compl_right).symm.trans
      (hf.outcome_after hg hdisjoint island).2.symm
  have hothers : AgreeOn others (after (g first)).population (after (f second)).population :=
    (hg.outcome_after hf hdisjoint.symm island).2.trans
      ((hf.leaves second).mono hdisjoint.symm.subset_compl_right)
  have hrest : AgreeOn (slots ∪ others)ᶜ (after (g first)).population
      (after (f second)).population := by
    have hback := hg.leaves_both hf island
    rw [Set.union_comm] at hback
    exact (hf.leaves_both hg island).symm.trans hback
  have hall := (hslots.union hothers).union hrest
  rw [Set.union_compl_self] at hall
  exact hall.eq

end Commuting

section Arrivals

variable {slots : Set Nat} {arrivals : List (Individual α × Nat)}
  (hbound : ∀ arrival ∈ arrivals, arrival.2 ∈ slots)

include hbound

theorem merge_leaves (p : Population α) : AgreeOn slotsᶜ p (p.merge arrivals).1 := by
  let Keeps : Population α → Prop := fun next => AgreeOn slotsᶜ p next
  have hstep : ∀ next : Population α, ∀ arrival ∈ arrivals, ∀ occupant, Keeps next →
      next.individuals[arrival.2]? = some occupant →
        arrival.1.isPreferredOver next.problem occupant = true →
          Keeps (next.set arrival.2 arrival.1) := by
    intro next arrival harrival _ hnext _ _
    exact hnext.trans (agreeOn_set_right (not_not.mpr (hbound arrival harrival)) next arrival.1)
  have hkeeps : Keeps (p.merge arrivals).1 := merge_keeps hstep (AgreeOn.refl _ p)
  exact hkeeps

theorem overwrite_leaves (p : Population α) : AgreeOn slotsᶜ p (p.overwrite arrivals) := by
  let Keeps : Population α → Prop := fun next => AgreeOn slotsᶜ p next
  have hstep : ∀ next : Population α, ∀ arrival ∈ arrivals, Keeps next →
      Keeps (next.set arrival.2 arrival.1) := by
    intro next arrival harrival hnext
    exact hnext.trans (agreeOn_set_right (not_not.mpr (hbound arrival harrival)) next arrival.1)
  have hkeeps : Keeps (p.overwrite arrivals) := overwrite_keeps hstep (AgreeOn.refl _ p)
  exact hkeeps

omit hbound in
theorem compete_agreeOn {state other : Population α × Nat} (hcount : state.2 = other.2)
    (h : AgreeOn slots state.1 other.1) {arrival : Individual α × Nat} (hslot : arrival.2 ∈ slots) :
    (Population.compete state arrival).2 = (Population.compete other arrival).2 ∧
      AgreeOn slots (Population.compete state arrival).1 (Population.compete other arrival).1 := by
  have hget : state.1.get? arrival.2 = other.1.get? arrival.2 := h.slot_eq arrival.2 hslot
  rw [Population.compete, Population.compete, hget, h.problem_eq]
  cases other.1.get? arrival.2 with
  | none => exact ⟨hcount, h⟩
  | some occupant =>
      simp only
      split
      · exact ⟨congrArg (· + 1) hcount, h.set arrival.2 arrival.1⟩
      · exact ⟨hcount, h⟩

theorem merge_reads {p q : Population α} (h : AgreeOn slots p q) :
    (p.merge arrivals).2 = (q.merge arrivals).2 ∧
      AgreeOn slots (p.merge arrivals).1 (q.merge arrivals).1 := by
  have hfold : ∀ state other : Population α × Nat, state.2 = other.2 →
      AgreeOn slots state.1 other.1 →
        (arrivals.foldl Population.compete state).2 =
            (arrivals.foldl Population.compete other).2 ∧
          AgreeOn slots (arrivals.foldl Population.compete state).1
            (arrivals.foldl Population.compete other).1 := by
    induction arrivals with
    | nil =>
        intro state other hcount hstate
        exact ⟨hcount, hstate⟩
    | cons arrival arrivals ih =>
        intro state other hcount hstate
        obtain ⟨hcount, hstate⟩ :=
          compete_agreeOn hcount hstate (hbound arrival List.mem_cons_self)
        exact ih (fun later hlater => hbound later (List.mem_cons_of_mem arrival hlater)) _ _ hcount
          hstate
  exact hfold (p, 0) (q, 0) rfl h

omit hbound in
theorem overwrite_reads {p q : Population α} (h : AgreeOn slots p q) :
    AgreeOn slots (p.overwrite arrivals) (q.overwrite arrivals) := by
  rw [Population.overwrite, Population.overwrite]
  induction arrivals generalizing p q with
  | nil => exact h
  | cons arrival arrivals ih => exact ih (h.set arrival.2 arrival.1)

end Arrivals

inductive Insertion where
  | compete
  | force
  | best

section Insertions

variable [Extended α]

def Insertion.perform (insertion : Insertion) (deme : Deme α) : Action σ α (Option Nat) :=
  match insertion with
  | compete => return some (← Island.insertDeme deme)
  | force => do
    Island.insertDemeForced deme
    return none
  | best => return some (← Island.insertBest deme)

omit [Scalar α] [Extended α] in
theorem mem_picks_of_arrival {deme : Deme α} :
    ∀ arrival ∈ deme.arrivals, arrival.2 ∈ {pick | pick ∈ deme.picks} :=
  fun _ harrival => (List.of_mem_zip harrival).2

omit [Extended α] in
theorem confined_insertDeme (deme : Deme α) :
    Confined {pick | pick ∈ deme.picks} (Island.insertDeme deme : Action σ α Nat) := by
  constructor
  case leaves =>
    intro island
    rw [insertDeme_eq]
    cases deme.check island.population with
    | error => exact AgreeOn.refl _ _
    | ok => exact merge_leaves mem_picks_of_arrival island.population
  case reads =>
    intro island other h
    obtain ⟨hcount, hmerged⟩ := merge_reads mem_picks_of_arrival h
    rw [insertDeme_eq, insertDeme_eq, h.check_eq]
    cases deme.check other.population with
    | error => exact ⟨rfl, h⟩
    | ok => exact ⟨congrArg Except.ok hcount, hmerged⟩

omit [Extended α] in
theorem confined_insertDemeForced (deme : Deme α) :
    Confined {pick | pick ∈ deme.picks} (Island.insertDemeForced deme : Action σ α Unit) := by
  constructor
  case leaves =>
    intro island
    rw [insertDemeForced_eq]
    cases deme.check island.population with
    | error => exact AgreeOn.refl _ _
    | ok => exact overwrite_leaves mem_picks_of_arrival island.population
  case reads =>
    intro island other h
    rw [insertDemeForced_eq, insertDemeForced_eq, h.check_eq]
    cases deme.check other.population with
    | error => exact ⟨rfl, h⟩
    | ok => exact ⟨rfl, overwrite_reads h⟩

theorem getD_mem_picks {p : Population α} {picks : List Nat} {worst : Individual α} {position : Nat}
    (h : worstOf p.problem (picks.filterMap p.get?) = some (worst, position)) :
    picks.getD position 0 ∈ picks := by
  have hlt := (List.getElem?_eq_some_iff.mp (worstOf_getElem? h)).1
  have hposition : position < picks.length := hlt.trans_le (List.length_filterMap_le _ _)
  rw [List.getD_eq_getElem?_getD, List.getElem?_eq_getElem hposition, Option.getD_some]
  exact List.getElem_mem hposition

theorem confined_insertBest (deme : Deme α) :
    Confined {pick | pick ∈ deme.picks} (Island.insertBest deme : Action σ α Nat) := by
  constructor
  case leaves =>
    intro island
    rw [insertBest_eq]
    cases deme.check island.population with
    | error => exact AgreeOn.refl _ _
    | ok =>
        cases bestOf island.population.problem deme.individuals with
        | none => exact AgreeOn.refl _ _
        | some migrant =>
            cases hworst : worstOf island.population.problem
                (deme.picks.filterMap island.population.get?) with
            | none => exact AgreeOn.refl _ _
            | some occupant =>
                exact agreeOn_set_right (not_not.mpr (getD_mem_picks hworst)) _ migrant.1
  case reads =>
    intro island other h
    rw [insertBest_eq, insertBest_eq, h.check_eq, h.occupants_eq fun _ hpick => hpick, h.problem_eq]
    cases deme.check other.population with
    | error => exact ⟨rfl, h⟩
    | ok =>
        cases bestOf other.population.problem deme.individuals with
        | none => exact ⟨rfl, h⟩
        | some migrant =>
            cases worstOf other.population.problem
                (deme.picks.filterMap other.population.get?) with
            | none => exact ⟨rfl, h⟩
            | some occupant => exact ⟨rfl, h.set _ migrant.1⟩

theorem confined_perform (insertion : Insertion) (deme : Deme α) :
    Confined {pick | pick ∈ deme.picks} (insertion.perform deme : Action σ α (Option Nat)) := by
  cases insertion with
  | compete => exact (confined_insertDeme deme).map some
  | force => exact (confined_insertDemeForced deme).map fun _ => none
  | best => exact (confined_insertBest deme).map some

/-- Demes with different picks can be merged in any order, each in a way of its own.  The returned
values and the population are the same, and slots that neither of them picks stay as they are. -/
theorem independent_insertions_commute {first second : Insertion} {deme other : Deme α}
    (hdisjoint : ∀ pick ∈ deme.picks, pick ∉ other.picks)
    {island afterFirst afterSecond : Island σ α} {x y : Option Nat}
    (hfirst : first.perform deme island = .ok x afterFirst)
    (hsecond : second.perform other island = .ok y afterSecond) :
    ∃ firstLast secondLast, second.perform other afterFirst = .ok y secondLast ∧
      first.perform deme afterSecond = .ok x firstLast ∧
      secondLast.population = firstLast.population ∧
      ∀ slot, slot ∉ deme.picks → slot ∉ other.picks →
        secondLast.population.individuals[slot]? = island.population.individuals[slot]? := by
  have hdeme : Confined {pick | pick ∈ deme.picks} (first.perform deme : Action σ α _) :=
    confined_perform first deme
  have hother : Confined {pick | pick ∈ other.picks} (second.perform other : Action σ α _) :=
    confined_perform second other
  have hpicks : Disjoint {pick | pick ∈ deme.picks} {pick | pick ∈ other.picks} :=
    Set.disjoint_left.mpr hdisjoint
  have hpopulation := hdeme.commute hother hpicks island
  have hleaves := hdeme.leaves_both hother island
  have hfirstLast := (hdeme.outcome_after hother hpicks island).1
  have hsecondLast := (hother.outcome_after hdeme hpicks.symm island).1
  simp only [hfirst, hsecond, after] at hpopulation hleaves hfirstLast hsecondLast
  obtain ⟨firstLast, hfirstLast⟩ := exists_ok_of_outcome hfirstLast
  obtain ⟨secondLast, hsecondLast⟩ := exists_ok_of_outcome hsecondLast
  rw [hfirstLast, hsecondLast] at hpopulation
  rw [hsecondLast] at hleaves
  refine ⟨firstLast, secondLast, hsecondLast, hfirstLast, hpopulation, ?_⟩
  intro slot hslot hslot'
  exact (hleaves.slot_eq slot (not_or.mpr ⟨hslot, hslot'⟩)).symm

end Insertions

/-- Two individuals at the upper end of the interval. -/
def pair : Island (Script Binary64) Binary64 where
  population :=
    { problem := interval
      individuals := [evaluated interval [1] [0], evaluated interval [1] [0]] }
  session := { source := .constant 0.5 }

/-- The lower end of the interval, bound for a slot. -/
def bottomFor (slot : Nat) : Deme Binary64 where
  individuals := [evaluated interval [-1] [0]]
  picks := [slot]

theorem check_bottomFor {slot : Nat} (hslot : slot < 2) :
    (bottomFor slot).check pair.population = .ok () := by
  have hpicks : Deme.checkPicks (α := Binary64) 2 [] [slot] = .ok () := by
    rw [Deme.checkPicks, if_neg (Nat.not_le.mpr hslot)]
    rfl
  refine check_eq_ok_iff.mpr ⟨rfl, hpicks, ?_⟩
  intro individual hindividual
  rw [List.mem_singleton.mp hindividual]
  exact checkShape_eq_ok_iff.mpr ⟨rfl, rfl, rfl, rfl⟩

theorem pair_insertions_commute :
    ∃ afterFirst afterSecond firstLast secondLast,
      Insertion.compete.perform (bottomFor 0) pair = .ok (some 1) afterFirst ∧
      Insertion.best.perform (bottomFor 1) pair = .ok (some 1) afterSecond ∧
      Insertion.best.perform (bottomFor 1) afterFirst = .ok (some 1) secondLast ∧
      Insertion.compete.perform (bottomFor 0) afterSecond = .ok (some 1) firstLast ∧
      secondLast.population = firstLast.population := by
  have hfirst : ∃ afterFirst,
      Insertion.compete.perform (bottomFor 0) pair = .ok (some 1) afterFirst := by
    rw [Insertion.perform, bind_apply, insertDeme_eq, check_bottomFor (by decide)]
    exact ⟨_, rfl⟩
  have hsecond : ∃ afterSecond,
      Insertion.best.perform (bottomFor 1) pair = .ok (some 1) afterSecond := by
    rw [Insertion.perform, bind_apply, insertBest_eq, check_bottomFor (by decide)]
    exact ⟨_, rfl⟩
  obtain ⟨afterFirst, hfirst⟩ := hfirst
  obtain ⟨afterSecond, hsecond⟩ := hsecond
  have hdisjoint : ∀ pick ∈ (bottomFor 0).picks, pick ∉ (bottomFor 1).picks := by decide
  obtain ⟨firstLast, secondLast, hsecondLast, hfirstLast, hpopulation, -⟩ :=
    independent_insertions_commute hdisjoint hfirst hsecond
  exact ⟨_, _, _, _, hfirst, hsecond, hsecondLast, hfirstLast, hpopulation⟩

end Archipelago.Proofs.Independence
