import Archipelago.Proofs.Settlement

namespace Archipelago.Proofs.Displacement

open Actions
open Independence
open OrderedScalars
open Runs
open Scans
open Selection
open Settlement
open StrictPreference

theorem occupant_of_position {α : Type} [Scalar α] {p : Population α} {picks : List Nat}
    (hbound : ∀ pick ∈ picks, pick < p.size) {position : Nat} {occupant : Individual α}
    (h : (picks.filterMap p.get?)[position]? = some occupant) :
    p.individuals[picks.getD position 0]? = some occupant := by
  obtain ⟨pick, hpick, hoccupant⟩ := pick_of_occupant (map_some_occupants hbound) h
  rw [List.getD_eq_getElem?_getD, hpick]
  exact hoccupant

section Insertion

variable {σ α : Type} [Scalar α] [Extended α] {deme : Deme α} {island next : Island σ α}
  {slot : Nat}

/-- What the insertion of the best migrant does if it succeeds. -/
theorem insertBest_cases (h : Island.insertBest deme island = .ok slot next) :
    ∃ migrant occupant source position,
      deme.check island.population = .ok () ∧
      bestOf island.population.problem deme.individuals = some (migrant, source) ∧
      worstOf island.population.problem (deme.picks.filterMap island.population.get?) =
        some (occupant, position) ∧
      slot = deme.picks.getD position 0 ∧
      next.population = island.population.set slot migrant ∧
      next.session =
        if migrant.isPreferredOver island.population.problem occupant then island.session
        else (Session.report (.regressed slot) island.session).2 := by
  rw [insertBest_eq] at h
  cases hcheck : deme.check island.population with
  | error => simp [hcheck] at h
  | ok =>
      cases hbest : bestOf island.population.problem deme.individuals with
      | none => simp [hcheck, hbest] at h
      | some migrant =>
          cases hworst : worstOf island.population.problem
              (deme.picks.filterMap island.population.get?) with
          | none => simp [hcheck, hbest, hworst] at h
          | some occupant =>
              simp only [hcheck, hbest, hworst, EStateM.Result.ok.injEq] at h
              obtain ⟨rfl, rfl⟩ := h
              exact ⟨migrant.1, occupant.1, migrant.2, occupant.2, rfl, rfl, rfl, rfl, rfl, rfl⟩

variable [OrderedScalar α] (hstandard : island.population.problem.preference = .standard)

include hstandard

omit [Extended α] in
theorem strictOn_incomers (hcheck : deme.check island.population = .ok ())
    (hincomers : island.population.problem.fitnessDimension = 1 ∨
      ∀ incomer ∈ deme.individuals, AllDefined incomer.fitness) :
    StrictOn (fun a b => a.isPreferredOver island.population.problem b) deme.individuals := by
  refine strictOn_of_rankable hstandard fun incomer hincomer => ?_
  have hshape := (check_eq_ok_iff.mp hcheck).2.2 incomer hincomer
  exact ⟨(checkShape_eq_ok_iff.mp hshape).2.2.1,
    hincomers.imp_right fun hdefined => hdefined incomer hincomer⟩

/-- The best migrant takes the slot of the worst of the individuals that are picked, and a warning
says whether it is not preferred over that one. -/
theorem best_displaces_worst
    (hincomers : island.population.problem.fitnessDimension = 1 ∨
      ∀ incomer ∈ deme.individuals, AllDefined incomer.fitness)
    (hoccupants : ∀ pick ∈ deme.picks, ∀ occupant,
      island.population.individuals[pick]? = some occupant →
        Rankable island.population.problem.fitnessDimension occupant.fitness)
    (h : Island.insertBest deme island = .ok slot next) :
    slot ∈ deme.picks ∧
    ∃ migrant ∈ deme.individuals, ∃ occupant, ∃ told : List (Event α),
      island.population.individuals[slot]? = some occupant ∧
      next.population.individuals[slot]? = some migrant ∧
      AgreeOn {slot}ᶜ island.population next.population ∧
      (∀ incomer ∈ deme.individuals,
        incomer.isPreferredOver island.population.problem migrant = false) ∧
      (∀ pick ∈ deme.picks, ∀ other, island.population.individuals[pick]? = some other →
        occupant.isPreferredOver island.population.problem other = false) ∧
      next.session = { island.session with events := told ++ island.session.events } ∧
      ((∃ event ∈ told, event.level = .warn) ↔
        migrant.isPreferredOver island.population.problem occupant = false) := by
  obtain ⟨migrant, occupant, source, position, hcheck, hbest, hworst, rfl, hpopulation, hsession⟩ :=
    insertBest_cases h
  have hbound : ∀ pick ∈ deme.picks, pick < island.population.size := fun pick hpick =>
    ((checkPicks_eq_ok_iff.mp (check_eq_ok_iff.mp hcheck).2.1).1 pick hpick).1
  have hoccupant := occupant_of_position hbound (worstOf_getElem? hworst)
  have hstrict : StrictOn (fun a b => a.isPreferredOver island.population.problem b)
      (deme.picks.filterMap island.population.get?) := by
    refine strictOn_of_rankable hstandard fun other hother => ?_
    obtain ⟨pick, hpick, hother⟩ := List.mem_filterMap.mp hother
    exact hoccupants pick hpick other hother
  refine ⟨getD_mem_picks hworst, migrant, List.mem_of_getElem? (bestOf_getElem? hbest),
    occupant, ?_⟩
  have hwritten : next.population.individuals[deme.picks.getD position 0]? = some migrant := by
    rw [hpopulation]
    exact List.getElem?_set_self (List.getElem?_eq_some_iff.mp hoccupant).1
  have hothers : AgreeOn {deme.picks.getD position 0}ᶜ island.population next.population := by
    rw [hpopulation]
    exact agreeOn_set_right (not_not.mpr rfl) _ migrant
  have hbeaten := bestOf_not_beaten (strictOn_incomers hstandard hcheck hincomers) hbest
  have hworse : ∀ pick ∈ deme.picks, ∀ other,
      island.population.individuals[pick]? = some other →
        occupant.isPreferredOver island.population.problem other = false :=
    fun pick hpick other hother =>
      worstOf_beats_none hstrict hworst other (List.mem_filterMap.mpr ⟨pick, hpick, hother⟩)
  cases hpreferred : migrant.isPreferredOver island.population.problem occupant with
  | true =>
      rw [hpreferred] at hsession
      exact ⟨[], hoccupant, hwritten, hothers, hbeaten, hworse, hsession, by simp⟩
  | false =>
      rw [hpreferred] at hsession
      exact ⟨[.regressed (deme.picks.getD position 0)], hoccupant, hwritten, hothers, hbeaten,
        hworse, hsession, by simp [Event.level]⟩

end Insertion

theorem best_of_ends_displaces_second :
    ∃ next, Island.insertBest endsReversed pair = .ok 1 next ∧
      AgreeOn {1}ᶜ pair.population next.population ∧
      ∃ migrant ∈ endsReversed.individuals, next.population.individuals[1]? = some migrant ∧
        ∀ incomer ∈ endsReversed.individuals,
          incomer.isPreferredOver pair.population.problem migrant = false := by
  have hcheck : endsReversed.check pair.population = .ok () :=
    check_perm check_ends rfl
      (List.Perm.swap (evaluated interval [-1] [0], 0) (evaluated interval [1] [0], 1) [])
  have hinsert : ∃ next, Island.insertBest endsReversed pair = .ok 1 next := by
    rw [insertBest_eq, hcheck]
    exact ⟨_, rfl⟩
  obtain ⟨next, hinsert⟩ := hinsert
  have hoccupants : ∀ pick ∈ endsReversed.picks, ∀ occupant,
      pair.population.individuals[pick]? = some occupant →
        Rankable pair.population.problem.fitnessDimension occupant.fitness := by
    rintro pick - occupant hoccupant
    have hpair : ∀ individual ∈ pair.population.individuals,
        individual = evaluated interval [1] [0] := by simp [pair]
    rw [hpair occupant (List.mem_of_getElem? hoccupant)]
    exact ⟨rfl, .inl rfl⟩
  obtain ⟨-, migrant, hmigrant, -, -, -, hslot, hothers, hbest, -⟩ :=
    best_displaces_worst rfl (.inl rfl) hoccupants hinsert
  exact ⟨next, hinsert, hothers, migrant, hmigrant, hslot, hbest⟩

end Archipelago.Proofs.Displacement
