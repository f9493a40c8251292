import Archipelago.Proofs.Operations

/-!
An operation that fails leaves no trace.  It stops at one of its checks, and these come before its
first draw, its first evaluation and its first change of the population.  What it does after them
cannot fail.
-/

namespace Archipelago.Proofs.Failures

open Actions
open Annealing
open Operations
open Runs
open Selection

variable {σ α β γ : Type} [Scalar α]

/-- The action succeeds on an island. -/
def Succeeds (action : Action σ α β) (island : Island σ α) : Prop :=
  ∃ value next, action island = .ok value next

/-- If the action fails on an island, then it leaves everything as it is: the population, the source
and the record of draws, calls and events. -/
def FailsClean (action : Action σ α β) (island : Island σ α) : Prop :=
  ∀ cause next, action island = .error cause next → next = island

section Rules

variable {island : Island σ α}

theorem Succeeds.failsClean {action : Action σ α β} (h : Succeeds action island) :
    FailsClean action island := by
  intro cause next hfails
  obtain ⟨value, other, hsucceeds⟩ := h
  rw [hsucceeds] at hfails
  contradiction

theorem failsClean_getPopulation_bind {f : Population α → Action σ α β}
    (h : FailsClean (f island.population) island) :
    FailsClean (Island.getPopulation >>= f) island :=
  h

theorem failsClean_require_bind {check : Except (Violation α) γ} {f : γ → Action σ α β}
    (h : ∀ value, check = .ok value → FailsClean (f value) island) :
    FailsClean (Island.require check >>= f) island := by
  intro cause next hfails
  rw [require_bind] at hfails
  cases hcheck : check with
  | ok value =>
      rw [hcheck] at hfails
      exact h value hcheck cause next hfails
  | error =>
      rw [hcheck] at hfails
      cases hfails
      rfl

end Rules

section Checked

variable {island : Island σ α}

theorem failsClean_push (individual : Individual α) :
    FailsClean (Island.push individual) island := by
  apply failsClean_getPopulation_bind
  apply failsClean_require_bind
  intro _ _
  exact Succeeds.failsClean ⟨_, _, rfl⟩

theorem failsClean_pushDecision (decision : List α) :
    FailsClean (Island.pushDecision decision) island := by
  intro cause next hfails
  rw [pushDecision_eq] at hfails
  cases hverify : island.population.problem.verify decision with
  | ok => simp only [hverify, reduceCtorEq] at hfails
  | error =>
      rw [hverify] at hfails
      cases hfails
      rfl

theorem failsClean_substitute (index : Nat) (individual : Individual α) :
    FailsClean (Island.substitute index individual) island := by
  apply failsClean_getPopulation_bind
  apply failsClean_require_bind
  intro _ _
  apply failsClean_require_bind
  intro _ _
  exact Succeeds.failsClean ⟨_, _, rfl⟩

theorem failsClean_setDecision (index : Nat) (decision : List α) :
    FailsClean (Island.setDecision index decision) island := by
  apply failsClean_getPopulation_bind
  apply failsClean_require_bind
  intro _ _
  apply failsClean_require_bind
  intro _ _
  -- Moving the individual looks up its slot once more.
  apply failsClean_getPopulation_bind
  apply failsClean_require_bind
  intro _ _
  exact Succeeds.failsClean ⟨_, _, rfl⟩

theorem failsClean_setVelocity (index : Nat) (velocity : List α) :
    FailsClean (Island.setVelocity index velocity) island := by
  apply failsClean_getPopulation_bind
  apply failsClean_require_bind
  intro _ _
  apply failsClean_require_bind
  intro _ _
  exact Succeeds.failsClean ⟨_, _, rfl⟩

theorem failsClean_insertDeme (deme : Deme α) : FailsClean (Island.insertDeme deme) island := by
  apply failsClean_getPopulation_bind
  apply failsClean_require_bind
  intro _ _
  exact Succeeds.failsClean ⟨_, _, rfl⟩

theorem failsClean_insertDemeForced (deme : Deme α) :
    FailsClean (Island.insertDemeForced deme) island := by
  apply failsClean_getPopulation_bind
  apply failsClean_require_bind
  intro _ _
  exact Succeeds.failsClean ⟨_, _, rfl⟩

theorem failsClean_insertBest [Extended α] (deme : Deme α) :
    FailsClean (Island.insertBest deme) island := by
  apply failsClean_getPopulation_bind
  apply failsClean_require_bind
  intro _ _
  dsimp only
  split
  · apply Succeeds.failsClean
    split
    · exact ⟨_, _, rfl⟩
    · exact ⟨_, _, rfl⟩
  · rintro cause next ⟨⟩
    rfl

variable [Source σ α]

theorem failsClean_createRandom (lower upper : List α) (n : Nat) :
    FailsClean (Island.createRandom lower upper n) island := by
  apply failsClean_getPopulation_bind
  apply failsClean_require_bind
  intro _ _
  exact Succeeds.failsClean ⟨_, _, rfl⟩

theorem failsClean_extractDeme (n : Nat) : FailsClean (Island.extractDeme n) island := by
  apply failsClean_getPopulation_bind
  split
  · rintro cause next ⟨⟩
    rfl
  · exact Succeeds.failsClean ⟨_, _, rfl⟩

end Checked

theorem setVelocity_of_length {island : Island σ α} {index : Nat} {individual : Individual α}
    (hslot : island.population.individuals[index]? = some individual) {velocity : List α}
    (hlength : velocity.length = individual.decision.length) :
    Island.setVelocity index velocity island =
      .ok () { island with
        population := island.population.set index { individual with velocity } } := by
  rw [setVelocity_eq, member_eq_ok_iff.mpr hslot]
  simp only [checkLength_eq_ok_iff.mpr hlength.symm]

/-- The individuals of two islands have the same decisions. -/
def SameDecisions (island next : Island σ α) : Prop :=
  next.population.individuals.map Individual.decision =
    island.population.individuals.map Individual.decision

theorem SameDecisions.exists_slot {island next : Island σ α} (h : SameDecisions island next)
    {index : Nat} (hindex : index < island.population.size) :
    ∃ individual ∈ island.population.individuals, ∃ other,
      next.population.individuals[index]? = some other ∧
        other.decision = individual.decision := by
  have hslot := congrArg (fun decisions => decisions[index]?) h
  simp only [List.getElem?_map, List.getElem?_eq_getElem hindex, Option.map_some] at hslot
  obtain ⟨other, hother, hdecision⟩ := Option.map_eq_some_iff.mp hslot
  exact ⟨_, List.getElem_mem hindex, other, hother, hdecision⟩

section Steering

variable [Source σ α] {island : Island σ α} {lower upper : List α}

/-- All individuals have as many components as the box that velocities are drawn from. -/
def FitsBox (island : Island σ α) (lower upper : List α) : Prop :=
  ∀ individual ∈ island.population.individuals,
    (lower.zip upper).length = individual.decision.length

/-- Wherever all decisions are still the same, a velocity that is drawn for a slot is accepted. -/
theorem setVelocity_drawn (hfits : FitsBox island lower upper) {next : Island σ α}
    (hnext : SameDecisions island next) {index : Nat} (hindex : index < island.population.size) :
    ∃ last, Island.setVelocity index (Sampling.vector lower upper next.session).1
        { next with session := (Sampling.vector lower upper next.session).2 } = .ok () last ∧
      SameDecisions island last := by
  obtain ⟨individual, hindividual, other, hslot, hdecision⟩ := hnext.exists_slot hindex
  have hlength : (Sampling.vector lower upper next.session).1.length = other.decision.length := by
    rw [hdecision, ← hfits individual hindividual]
    exact length_mapM _ _ _
  let drawn : Island σ α :=
    { next with session := (Sampling.vector lower upper next.session).2 }
  have hdrawn : drawn.population.individuals[index]? = some other := hslot
  refine ⟨_, setVelocity_of_length hdrawn hlength, ?_⟩
  obtain ⟨hlt, rfl⟩ := List.getElem?_eq_some_iff.mp hslot
  have hmap : index < (next.population.individuals.map Individual.decision).length := by
    rwa [List.length_map]
  have hkept := List.set_getElem_self hmap
  rw [List.getElem_map] at hkept
  change (next.population.individuals.set index _).map Individual.decision = _
  rw [List.map_set, ← hnext]
  exact hkept

theorem steer_all (hfits : FitsBox island lower upper) {n : Nat} (hn : n ≤ island.population.size) :
    ∃ next, (List.range n).forM (steer lower upper) island = .ok () next ∧
      SameDecisions island next := by
  apply forM_eq_ok
  · intro index hindex next hnext
    exact setVelocity_drawn hfits hnext (Nat.lt_of_lt_of_le (List.mem_range.mp hindex) hn)
  · rfl

omit [Source σ α] in
theorem fitsBox_of_checkBox
    (hmembers : ∀ individual ∈ island.population.individuals,
      individual.decision.length = island.population.problem.dimension)
    (hbox : island.population.problem.checkBox false lower upper = .ok ()) :
    FitsBox island lower upper := by
  intro individual hindividual
  obtain ⟨hlower, hupper⟩ := checkBox_length hbox
  rw [hmembers individual hindividual, List.length_zip, hlower, hupper, Nat.min_self]

theorem resetVelocities_of_checkBox
    (hbox : island.population.problem.checkBox false lower upper = .ok ()) :
    Island.resetVelocities lower upper island =
      (List.range island.population.size).forM (steer lower upper) island := by
  rw [Island.resetVelocities, getPopulation_bind, require_bind, hbox]
  rfl

theorem failsClean_resetVelocities
    (hmembers : ∀ individual ∈ island.population.individuals,
      individual.decision.length = island.population.problem.dimension) :
    FailsClean (Island.resetVelocities lower upper) island := by
  apply failsClean_getPopulation_bind
  apply failsClean_require_bind
  intro _ hbox
  apply Succeeds.failsClean
  obtain ⟨next, hnext, -⟩ := steer_all (fitsBox_of_checkBox hmembers hbox) le_rfl
  exact ⟨(), next, hnext⟩

end Steering

section Annealers

variable [Elementary α] [Source σ α] [Extended α] {island : Island σ α} {annealer : Annealer α}

theorem setVelocity_walked {stages slot : Nat} {individual : Individual α}
    (hcheck : annealer.checkProblem island.population.problem = .ok stages)
    (hbest : island.population.best = .ok (individual, slot)) {last : Walk σ α}
    (hlast : lastWalk annealer stages individual island = last) :
    ∃ moved, Island.moveTo slot last.point { island with session := last.session } = .ok () moved ∧
      Succeeds (Island.setVelocity slot
        (last.point.zipWith (· - ·) individual.decision)) moved := by
  have hslot := best_getElem? hbest
  have hlt : slot < island.population.individuals.length := (List.getElem?_eq_some_iff.mp hslot).1
  have hlength : last.point.length = individual.decision.length :=
    hlast ▸ lastWalk_length hcheck individual
  rw [moveTo_eq, member_eq_ok_iff.mpr hslot]
  refine ⟨_, rfl, (), _, setVelocity_of_length (List.getElem?_set_self hlt) ?_⟩
  rw [List.length_zipWith, ← hlength, Nat.min_self]
  rfl

theorem failsClean_run : FailsClean annealer.run island := by
  intro cause next hfails
  obtain ⟨cause', hrun⟩ | ⟨_, _, _, -, -, hrun⟩ := run_fails_or_walks annealer island
  · rw [hrun] at hfails
    cases hfails
    rfl
  · rw [hrun] at hfails
    contradiction

end Annealers

/-- Failures change nothing.  An operation that fails leaves the island as it finds it, without a
draw and without an evaluation.  Where velocities are set after the first change, none is refused:
whatever is drawn for a slot has the right length, and so has the way of a walk. -/
theorem failure_leaves_island [Elementary α] [Source σ α] [Extended α] {island : Island σ α}
    (hmembers : ∀ individual ∈ island.population.individuals,
      individual.decision.length = island.population.problem.dimension) :
    (∀ lower upper n, FailsClean (Island.createRandom lower upper n) island) ∧
    (∀ lower upper, FailsClean (Island.resetVelocities lower upper) island) ∧
    (∀ individual, FailsClean (Island.push individual) island) ∧
    (∀ decision, FailsClean (Island.pushDecision decision) island) ∧
    (∀ index individual, FailsClean (Island.substitute index individual) island) ∧
    (∀ index decision, FailsClean (Island.setDecision index decision) island) ∧
    (∀ index velocity, FailsClean (Island.setVelocity index velocity) island) ∧
    (∀ deme, FailsClean (Island.insertDeme deme) island) ∧
    (∀ deme, FailsClean (Island.insertDemeForced deme) island) ∧
    (∀ deme, FailsClean (Island.insertBest deme) island) ∧
    (∀ n, FailsClean (Island.extractDeme n) island) ∧
    (∀ annealer : Annealer α, FailsClean annealer.run island) ∧
    (∀ lower upper, island.population.problem.checkBox false lower upper = .ok () →
      Succeeds (Island.resetVelocities lower upper) island ∧
      ∀ index < island.population.size, ∃ next,
        (List.range index).forM (steer lower upper) island = .ok () next ∧
          Succeeds (Island.setVelocity index (Sampling.vector lower upper next.session).1)
            { next with session := (Sampling.vector lower upper next.session).2 }) ∧
    ∀ (annealer : Annealer α) (stages slot : Nat) (individual : Individual α),
      annealer.checkProblem island.population.problem = .ok stages →
      island.population.best = .ok (individual, slot) →
        Succeeds annealer.run island ∧
        ∃ moved,
          Island.moveTo slot (lastWalk annealer stages individual island).point
              { island with session := (lastWalk annealer stages individual island).session } =
            .ok () moved ∧
          Succeeds (Island.setVelocity slot
            ((lastWalk annealer stages individual island).point.zipWith (· - ·)
              individual.decision)) moved := by
  refine ⟨failsClean_createRandom, fun _ _ => failsClean_resetVelocities hmembers,
    failsClean_push, failsClean_pushDecision, failsClean_substitute, failsClean_setDecision,
    failsClean_setVelocity, failsClean_insertDeme, failsClean_insertDemeForced,
    failsClean_insertBest, failsClean_extractDeme, fun _ => failsClean_run, ?_, ?_⟩
  · intro lower upper hbox
    have hfits := fitsBox_of_checkBox hmembers hbox
    constructor
    · obtain ⟨next, hnext, -⟩ := steer_all hfits le_rfl
      exact ⟨(), next, (resetVelocities_of_checkBox hbox).trans hnext⟩
    · intro index hindex
      obtain ⟨next, hnext, hsame⟩ := steer_all hfits hindex.le
      obtain ⟨last, hlast, -⟩ := setVelocity_drawn hfits hsame hindex
      exact ⟨next, hnext, (), last, hlast⟩
  · intro annealer stages slot individual hcheck hbest
    exact ⟨⟨_, _, run_eq hcheck hbest⟩, setVelocity_walked hcheck hbest rfl⟩

theorem interval_failure_leaves_island :
    (∀ individual ∈ intervalIsland.population.individuals,
      individual.decision.length = intervalIsland.population.problem.dimension) ∧
    (∃ cause next, Island.setVelocity 0 [] intervalIsland = .error cause next ∧
      next = intervalIsland) ∧
    Succeeds (Island.resetVelocities [-1] [1]) intervalIsland := by
  have hmembers : ∀ individual ∈ intervalIsland.population.individuals,
      individual.decision.length = intervalIsland.population.problem.dimension := by
    intro individual hindividual
    rw [List.mem_singleton.mp hindividual]
    rfl
  have hbox : intervalIsland.population.problem.checkBox false [-1] [1] = .ok () := rfl
  obtain ⟨-, -, -, -, -, -, hvelocity, -, -, -, -, -, hreset, -⟩ := failure_leaves_island hmembers
  have hrefused : ∃ cause next, Island.setVelocity 0 [] intervalIsland = .error cause next :=
    ⟨_, _, rfl⟩
  obtain ⟨cause, next, h⟩ := hrefused
  exact ⟨hmembers, ⟨cause, next, h, hvelocity 0 [] cause next h⟩, (hreset [-1] [1] hbox).1⟩

end Archipelago.Proofs.Failures
