import Archipelago.Proofs.Merging
import Archipelago.Proofs.Runs

namespace Archipelago.Proofs.Operations

open Actions
open Merging
open Runs
open Selection

/-- Operations that change a population. -/
inductive Operation (α : Type) [Scalar α] where
  | createRandom (lower upper : List α) (n : Nat)
  | resetVelocities (lower upper : List α)
  | push (individual : Individual α)
  | pushDecision (decision : List α)
  | substitute (index : Nat) (individual : Individual α)
  | setDecision (index : Nat) (decision : List α)
  | setVelocity (index : Nat) (velocity : List α)
  | reevaluate
  | insertDeme (deme : Deme α)
  | insertDemeForced (deme : Deme α)
  | insertBest (deme : Deme α)
  | anneal (annealer : Annealer α)

variable {α : Type} [Scalar α]

namespace Operation

def individuals : Operation α → List (Individual α)
  | push individual => [individual]
  | substitute _ individual => [individual]
  | insertDeme deme => deme.individuals
  | insertDemeForced deme => deme.individuals
  | insertBest deme => deme.individuals
  | _ => []

/-- The island after an operation that may have failed. -/
def apply {σ : Type} [Elementary α] [Extended α] [Source σ α] (operation : Operation α)
    (island : Island σ α) : Island σ α :=
  match operation with
  | createRandom lower upper n => after (Island.createRandom lower upper n island)
  | resetVelocities lower upper => after (Island.resetVelocities lower upper island)
  | push individual => after (Island.push individual island)
  | pushDecision decision => after (Island.pushDecision decision island)
  | substitute index individual => after (Island.substitute index individual island)
  | setDecision index decision => after (Island.setDecision index decision island)
  | setVelocity index velocity => after (Island.setVelocity index velocity island)
  | reevaluate => after (Island.reevaluate island)
  | insertDeme deme => after (Island.insertDeme deme island)
  | insertDemeForced deme => after (Island.insertDemeForced deme island)
  | insertBest deme => after (Island.insertBest deme island)
  | anneal annealer => after (annealer.run island)

/-- An operation leads from one population to another one with some source in some state. -/
def Leads [Elementary α] [Extended α] (operation : Operation α) (before next : Population α) :
    Prop :=
  ∃ (σ : Type) (_ : Source σ α) (session : Session σ α),
    (operation.apply { population := before, session }).population = next

end Operation

/-- The second individual is the first one, perhaps with another velocity of the right length. -/
def Steered (a b : Individual α) : Prop :=
  ∃ velocity, (velocity = a.velocity ∨ velocity.length = a.decision.length) ∧
    b = { a with velocity }

/-- What an operation can make of a population. -/
inductive Effect [Extended α] : Operation α → Population α → Population α → Prop
  | unchanged (operation : Operation α) (p : Population α) : Effect operation p p
  | createRandom {p : Population α} {lower upper : List α} {n : Nat}
      {individuals : List (Individual α)} (length_eq : individuals.length = n)
      (drawn : ∀ individual ∈ individuals, ∃ decision, decision.length = p.problem.dimension ∧
        individual = evaluated p.problem decision (List.replicate p.problem.dimension 0)) :
      Effect (.createRandom lower upper n) p { p with individuals }
  | resetVelocities {p : Population α} {lower upper : List α} {individuals : List (Individual α)}
      (steered : SlotWise Steered p.individuals individuals) :
      Effect (.resetVelocities lower upper) p { p with individuals }
  | push {p : Population α} {individual : Individual α}
      (shape : individual.checkShape p.problem = .ok ()) :
      Effect (.push individual) p (p.push individual)
  | pushDecision {p : Population α} {decision : List α}
      (verified : p.problem.verify decision = .ok ()) :
      Effect (.pushDecision decision) p
        (p.push (evaluated p.problem decision (List.replicate decision.length 0)))
  | substitute {p : Population α} {index : Nat} {individual : Individual α}
      (shape : individual.checkShape p.problem = .ok ()) :
      Effect (.substitute index individual) p (p.set index individual)
  | setDecision {p : Population α} {index : Nat} {individual : Individual α} {decision : List α}
      (slot : p.individuals[index]? = some individual)
      (verified : p.problem.verify decision = .ok ()) :
      Effect (.setDecision index decision) p
        (p.set index (evaluated p.problem decision individual.velocity))
  | setVelocity {p : Population α} {index : Nat} {individual : Individual α} {velocity : List α}
      (slot : p.individuals[index]? = some individual)
      (length_eq : velocity.length = individual.decision.length) :
      Effect (.setVelocity index velocity) p (p.set index { individual with velocity })
  | reevaluate {p : Population α} :
      Effect .reevaluate p
        { p with individuals := p.individuals.map fun individual =>
            evaluated p.problem individual.decision individual.velocity }
  | insertDeme {p : Population α} {deme : Deme α} (checked : deme.check p = .ok ()) :
      Effect (.insertDeme deme) p (p.merge deme.arrivals).1
  | insertDemeForced {p : Population α} {deme : Deme α} (checked : deme.check p = .ok ()) :
      Effect (.insertDemeForced deme) p (p.overwrite deme.arrivals)
  | insertBest {p : Population α} {deme : Deme α} {migrant : Individual α} {slot : Nat}
      (checked : deme.check p = .ok ()) (mem : migrant ∈ deme.individuals) :
      Effect (.insertBest deme) p (p.set slot migrant)
  | anneal {p : Population α} {annealer : Annealer α} {stages slot : Nat}
      {individual : Individual α} {point fitness : List α}
      (supported : annealer.checkProblem p.problem = .ok stages)
      (best : p.best = .ok (individual, slot))
      (length_eq : point.length = individual.decision.length)
      (improves : p.problem.preference.fitness fitness individual.fitness = true)
      (walked : fitness = individual.fitness ∨ fitness = p.problem.objective point) :
      Effect (.anneal annealer) p (p.set slot (improvement p.problem individual point))

section Effects

variable {σ : Type}

theorem checkBox_length {problem : Problem α} {nested : Bool} {lower upper : List α}
    (h : problem.checkBox nested lower upper = .ok ()) :
    lower.length = problem.dimension ∧ upper.length = problem.dimension := by
  rw [Problem.checkBox] at h
  cases hlower : (checkLength problem.dimension lower.length : Except (Violation α) Unit) with
  | error =>
      rw [hlower] at h
      contradiction
  | ok =>
      cases hupper : (checkLength problem.dimension upper.length : Except (Violation α) Unit) with
      | error =>
          rw [hlower, hupper] at h
          contradiction
      | ok =>
          exact ⟨(checkLength_eq_ok_iff.mp hlower).symm, (checkLength_eq_ok_iff.mp hupper).symm⟩

theorem member_eq_ok_iff {p : Population α} {index : Nat} {individual : Individual α} :
    p.member index = .ok individual ↔ p.individuals[index]? = some individual := by
  rw [Population.member, Population.get?]
  cases p.individuals[index]? with
  | none =>
      constructor
      · intro h
        contradiction
      · intro h
        contradiction
  | some found => simp only [Except.ok.injEq, Option.some.injEq]

omit [Scalar α] in
theorem steered_refl (individual : Individual α) : Steered individual individual :=
  ⟨individual.velocity, .inl rfl, rfl⟩

omit [Scalar α] in
theorem Steered.trans {a b : Individual α} (h : Steered a b) {velocity : List α}
    (hlength : velocity.length = b.decision.length) : Steered a { b with velocity } := by
  obtain ⟨_, -, rfl⟩ := h
  exact ⟨velocity, .inr hlength, rfl⟩

theorem setVelocity_population (index : Nat) (velocity : List α) (island : Island σ α) :
    (after (Island.setVelocity index velocity island)).population = island.population ∨
      ∃ individual, island.population.individuals[index]? = some individual ∧
        velocity.length = individual.decision.length ∧
        (after (Island.setVelocity index velocity island)).population =
          island.population.set index { individual with velocity } := by
  rw [setVelocity_eq]
  cases hmember : island.population.member index with
  | error => exact .inl rfl
  | ok individual =>
      cases hlength : (checkLength individual.decision.length velocity.length :
          Except (Violation α) Unit) with
      | error => exact .inl (by simp only [hlength, after])
      | ok =>
          refine .inr ⟨individual, member_eq_ok_iff.mp hmember,
            (checkLength_eq_ok_iff.mp hlength).symm, ?_⟩
          simp only [hlength, after]

def steer [Source σ α] (lower upper : List α) (index : Nat) : Action σ α Unit := do
  let velocity ← Island.perform (Sampling.vector lower upper)
  Island.setVelocity index velocity

theorem steered_forM [Source σ α] (lower upper : List α) (indices : List Nat)
    (island : Island σ α) :
    ∃ individuals, SlotWise Steered island.population.individuals individuals ∧
      (after (indices.forM (steer lower upper) island)).population =
        { island.population with individuals } := by
  let Keeps : Island σ α → Prop := fun next => ∃ individuals,
    SlotWise Steered island.population.individuals individuals ∧
      next.population = { island.population with individuals }
  have hstart : Keeps island := ⟨_, SlotWise.refl fun individual _ => steered_refl individual, rfl⟩
  have hstep : ∀ index next, Keeps next → Keeps (after (steer lower upper index next)) := by
    rintro index next ⟨individuals, hsteered, hnext⟩
    let velocity := (Sampling.vector lower upper next.session).1
    let drawn : Island σ α :=
      { next with session := (Sampling.vector lower upper next.session).2 }
    have hpopulation : drawn.population = { island.population with individuals } := hnext
    rcases setVelocity_population index velocity drawn with h | ⟨individual, hslot, hlength, h⟩
    · exact ⟨individuals, hsteered, h.trans hnext⟩
    · rw [hpopulation] at hslot h
      refine ⟨individuals.set index { individual with velocity }, hsteered.set ?_, h⟩
      intro first hfirst
      exact (hsteered.related index first individual hfirst hslot).trans hlength
  exact after_forM indices (steer lower upper) hstep hstart

variable [Extended α]

theorem effect_createRandom [Source σ α] (lower upper : List α) (n : Nat) (island : Island σ α) :
    Effect (.createRandom lower upper n) island.population
      (after (Island.createRandom lower upper n island)).population := by
  let problem := island.population.problem
  rw [Island.createRandom, getPopulation_bind, require_bind]
  cases hbox : problem.checkBox true lower upper with
  | error => exact .unchanged _ _
  | ok =>
      simp only
      rw [perform_bind, update_bind]
      apply Effect.createRandom
      · rw [length_mapM, List.length_replicate]
      · apply forall_mem_mapM
        intro _ session
        let decision := (Sampling.decision problem.continuousDimension lower upper session).1
        refine ⟨decision, ?_, rfl⟩
        obtain ⟨hlower, hupper⟩ := checkBox_length hbox
        have hlength : decision.length = ((lower.zip upper).zipIdx).length :=
          length_mapM _ _ session
        rw [hlength, List.length_zipIdx, List.length_zip, hlower, hupper, Nat.min_self]

theorem effect_resetVelocities [Source σ α] (lower upper : List α) (island : Island σ α) :
    Effect (.resetVelocities lower upper) island.population
      (after (Island.resetVelocities lower upper island)).population := by
  rw [Island.resetVelocities, getPopulation_bind, require_bind]
  cases island.population.problem.checkBox false lower upper with
  | error => exact .unchanged _ _
  | ok =>
      obtain ⟨individuals, hsteered, h⟩ := steered_forM lower upper
        (List.range island.population.size) island
      change Effect _ _ (after ((List.range _).forM (steer lower upper) island)).population
      rw [h]
      exact .resetVelocities hsteered

theorem effect_push (individual : Individual α) (island : Island σ α) :
    Effect (.push individual) island.population
      (after (Island.push individual island)).population := by
  rw [push_eq]
  cases hshape : individual.checkShape island.population.problem with
  | error => exact .unchanged _ _
  | ok => exact .push hshape

theorem effect_pushDecision (decision : List α) (island : Island σ α) :
    Effect (.pushDecision decision) island.population
      (after (Island.pushDecision decision island)).population := by
  rw [pushDecision_eq]
  cases hverify : island.population.problem.verify decision with
  | error => exact .unchanged _ _
  | ok => exact .pushDecision hverify

theorem effect_substitute (index : Nat) (individual : Individual α) (island : Island σ α) :
    Effect (.substitute index individual) island.population
      (after (Island.substitute index individual island)).population := by
  rw [substitute_eq]
  cases island.population.member index with
  | error => exact .unchanged _ _
  | ok =>
      cases hshape : individual.checkShape island.population.problem with
      | error => simpa only [hshape] using .unchanged _ _
      | ok => simpa only [hshape] using .substitute hshape

theorem effect_setDecision (index : Nat) (decision : List α) (island : Island σ α) :
    Effect (.setDecision index decision) island.population
      (after (Island.setDecision index decision island)).population := by
  rw [setDecision_eq]
  cases hmember : island.population.member index with
  | error => exact .unchanged _ _
  | ok individual =>
      cases hverify : island.population.problem.verify decision with
      | error => simpa only [hverify] using .unchanged _ _
      | ok =>
          simp only
          rw [moveTo_eq, hmember]
          exact .setDecision (member_eq_ok_iff.mp hmember) hverify

theorem effect_setVelocity (index : Nat) (velocity : List α) (island : Island σ α) :
    Effect (.setVelocity index velocity) island.population
      (after (Island.setVelocity index velocity island)).population := by
  rcases setVelocity_population index velocity island with h | ⟨individual, hslot, hlength, h⟩
  · rw [h]
    exact .unchanged _ _
  · rw [h]
    exact .setVelocity hslot hlength

theorem effect_reevaluate (island : Island σ α) :
    Effect .reevaluate island.population (after (Island.reevaluate island)).population := by
  obtain ⟨session, h⟩ := reevaluate_population island
  rw [h]
  exact .reevaluate

theorem effect_insertDeme (deme : Deme α) (island : Island σ α) :
    Effect (.insertDeme deme) island.population
      (after (Island.insertDeme deme island)).population := by
  rw [insertDeme_eq]
  cases hcheck : deme.check island.population with
  | error => exact .unchanged _ _
  | ok => exact .insertDeme hcheck

theorem effect_insertDemeForced (deme : Deme α) (island : Island σ α) :
    Effect (.insertDemeForced deme) island.population
      (after (Island.insertDemeForced deme island)).population := by
  rw [insertDemeForced_eq]
  cases hcheck : deme.check island.population with
  | error => exact .unchanged _ _
  | ok => exact .insertDemeForced hcheck

theorem effect_insertBest (deme : Deme α) (island : Island σ α) :
    Effect (.insertBest deme) island.population
      (after (Island.insertBest deme island)).population := by
  rw [insertBest_eq]
  cases hcheck : deme.check island.population with
  | error => exact .unchanged _ _
  | ok =>
      cases hmigrant : bestOf island.population.problem deme.individuals with
      | none => exact .unchanged _ _
      | some migrant =>
          cases worstOf island.population.problem
              (deme.picks.filterMap island.population.get?) with
          | none => exact .unchanged _ _
          | some occupant =>
              exact .insertBest hcheck (List.mem_of_getElem? (bestOf_getElem? hmigrant))

theorem effect_anneal [Elementary α] [Source σ α] (annealer : Annealer α) (island : Island σ α) :
    Effect (.anneal annealer) island.population (after (annealer.run island)).population := by
  obtain ⟨cause, hfails⟩ | ⟨stages, individual, slot, hcheck, hbest, hrun⟩ :=
    run_fails_or_walks annealer island
  · rw [hfails]
    exact .unchanged _ _
  · rw [hrun]
    change Effect _ _ (if _ then _ else _)
    split
    case isTrue himproves =>
      exact .anneal hcheck hbest (lastWalk_length hcheck individual) himproves
        (lastWalk_fitness hcheck individual)
    case isFalse => exact .unchanged _ _

theorem effect_of_leads [Elementary α] {operation : Operation α} {before next : Population α}
    (h : operation.Leads before next) : Effect operation before next := by
  obtain ⟨σ, _, session, rfl⟩ := h
  cases operation with
  | createRandom lower upper n => exact effect_createRandom lower upper n ⟨before, session⟩
  | resetVelocities lower upper => exact effect_resetVelocities lower upper ⟨before, session⟩
  | push individual => exact effect_push individual ⟨before, session⟩
  | pushDecision decision => exact effect_pushDecision decision ⟨before, session⟩
  | substitute index individual => exact effect_substitute index individual ⟨before, session⟩
  | setDecision index decision => exact effect_setDecision index decision ⟨before, session⟩
  | setVelocity index velocity => exact effect_setVelocity index velocity ⟨before, session⟩
  | reevaluate => exact effect_reevaluate ⟨before, session⟩
  | insertDeme deme => exact effect_insertDeme deme ⟨before, session⟩
  | insertDemeForced deme => exact effect_insertDemeForced deme ⟨before, session⟩
  | insertBest deme => exact effect_insertBest deme ⟨before, session⟩
  | anneal annealer => exact effect_anneal annealer ⟨before, session⟩

end Effects

end Archipelago.Proofs.Operations
