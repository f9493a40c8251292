import Archipelago.Proofs.Operations

namespace Archipelago.Proofs.Freshness

open Actions
open Merging
open Operations
open Runs

variable {α : Type} [Scalar α]

section Making

variable [Elementary α] [Extended α]

mutual

/-- Individuals that can be handed to operations on a problem: those that are built on it, also
with another velocity, and copies from populations on it. -/
inductive Made (problem : Problem α) : Individual α → Prop
  | created {σ : Type} {decision velocity : List α} {individual : Individual α}
      {before next : Session σ α}
      (created : Individual.create problem decision velocity before = .ok individual next) :
      Made problem individual
  | withVelocity {individual changed : Individual α} {velocity : List α}
      (made : Made problem individual)
      (changed_eq : individual.withVelocity velocity = .ok changed) : Made problem changed
  | copied {population : Population α} {individual : Individual α}
      (reached : Reached problem population) (mem : individual ∈ population.individuals) :
      Made problem individual

/-- Populations that operations lead to from an empty one. -/
inductive Reached (problem : Problem α) : Population α → Prop
  | new : Reached problem { problem }
  | step {before next : Population α} {operation : Operation α} (reached : Reached problem before)
      (given : ∀ individual ∈ operation.individuals, Made problem individual)
      (leads : operation.Leads before next) : Reached problem next

end

end Making

/-- The problem accepts decisions of its own dimension only, as a check of decisions has to. -/
def ChecksLength (problem : Problem α) : Prop :=
  ∀ decision, problem.verify decision = .ok () → decision.length = problem.dimension

/-- An individual with the values of its decision.  Its vectors have the dimension of the problem,
if that is checked. -/
structure Sound (problem : Problem α) (individual : Individual α) : Prop where
  fitness_eq : individual.fitness = problem.objective individual.decision
  constraints_eq : individual.constraints = problem.constraints individual.decision
  lengths : ChecksLength problem → individual.decision.length = problem.dimension ∧
    individual.velocity.length = problem.dimension

def AllSound (problem : Problem α) (population : Population α) : Prop :=
  population.problem = problem ∧ ∀ individual ∈ population.individuals, Sound problem individual

theorem sound_evaluated {problem : Problem α} {decision velocity : List α}
    (h : ChecksLength problem → decision.length = problem.dimension ∧
      velocity.length = problem.dimension) :
    Sound problem (evaluated problem decision velocity) :=
  ⟨rfl, rfl, h⟩

theorem Sound.withVelocity {problem : Problem α} {individual : Individual α}
    (h : Sound problem individual) {velocity : List α}
    (hlength : velocity.length = individual.decision.length) :
    Sound problem { individual with velocity } where
  fitness_eq := h.fitness_eq
  constraints_eq := h.constraints_eq
  lengths hchecks := ⟨(h.lengths hchecks).1, hlength.trans (h.lengths hchecks).1⟩

theorem sound_of_create {σ : Type} {problem : Problem α} {decision velocity : List α}
    {individual : Individual α} {before next : Session σ α}
    (h : Individual.create problem decision velocity before = .ok individual next) :
    Sound problem individual := by
  rw [create_eq] at h
  cases hverify : problem.verify decision with
  | error => simp only [hverify, reduceCtorEq] at h
  | ok =>
      cases hlength : (checkLength decision.length velocity.length :
          Except (Violation α) Unit) with
      | error => simp only [hverify, hlength, reduceCtorEq] at h
      | ok =>
          simp only [hverify, hlength, EStateM.Result.ok.injEq] at h
          obtain ⟨rfl, -⟩ := h
          apply sound_evaluated
          intro hchecks
          have hdecision := hchecks decision hverify
          exact ⟨hdecision, (checkLength_eq_ok_iff.mp hlength).symm.trans hdecision⟩

theorem AllSound.set {problem : Problem α} {p : Population α} (h : AllSound problem p) {slot : Nat}
    {individual : Individual α} (hindividual : Sound problem individual) :
    AllSound problem (p.set slot individual) := by
  refine ⟨h.1, ?_⟩
  intro other hother
  rcases List.mem_or_eq_of_mem_set hother with hother | rfl
  · exact h.2 other hother
  · exact hindividual

theorem AllSound.push {problem : Problem α} {p : Population α} (h : AllSound problem p)
    {individual : Individual α} (hindividual : Sound problem individual) :
    AllSound problem (p.push individual) := by
  refine ⟨h.1, ?_⟩
  intro other hother
  rcases List.mem_append.mp hother with hother | hother
  · exact h.2 other hother
  · rw [List.mem_singleton.mp hother]
    exact hindividual

theorem AllSound.of_effect [Extended α] {problem : Problem α} {operation : Operation α}
    {before next : Population α} (heffect : Effect operation before next)
    (hgiven : ∀ individual ∈ operation.individuals, Sound problem individual)
    (h : AllSound problem before) : AllSound problem next := by
  obtain ⟨rfl, hmembers⟩ := h
  have h : AllSound before.problem before := ⟨rfl, hmembers⟩
  -- A new member is evaluated, handed in, or an old one with another velocity.
  cases heffect with
  | unchanged => exact h
  | createRandom _ hdrawn =>
      refine ⟨rfl, ?_⟩
      intro individual hindividual
      obtain ⟨decision, hlength, rfl⟩ := hdrawn individual hindividual
      exact sound_evaluated fun _ => ⟨hlength, List.length_replicate⟩
  | resetVelocities hsteered =>
      refine ⟨rfl, ?_⟩
      intro individual hindividual
      obtain ⟨first, hfirst, velocity, rfl | hlength, rfl⟩ := hsteered.exists_left hindividual
      · exact hmembers first hfirst
      · exact (hmembers first hfirst).withVelocity hlength
  | push => exact h.push (hgiven _ (List.mem_singleton_self _))
  | @pushDecision _ decision hverified =>
      apply h.push
      apply sound_evaluated
      intro hchecks
      have hlength := hchecks decision hverified
      exact ⟨hlength, List.length_replicate.trans hlength⟩
  | substitute => exact h.set (hgiven _ (List.mem_singleton_self _))
  | @setDecision _ _ individual decision hslot hverified =>
      have hindividual := hmembers individual (List.mem_of_getElem? hslot)
      apply h.set
      exact sound_evaluated fun hchecks =>
        ⟨hchecks decision hverified, (hindividual.lengths hchecks).2⟩
  | setVelocity hslot hlength =>
      exact h.set ((hmembers _ (List.mem_of_getElem? hslot)).withVelocity hlength)
  | reevaluate =>
      refine ⟨rfl, ?_⟩
      intro individual hindividual
      obtain ⟨first, hfirst, rfl⟩ := List.mem_map.mp hindividual
      exact sound_evaluated (hmembers first hfirst).lengths
  | @insertDeme _ deme =>
      apply merge_keeps _ h
      intro p arrival harrival _ hp _ _
      exact hp.set (hgiven _ (List.of_mem_zip harrival).1)
  | @insertDemeForced _ deme =>
      apply overwrite_keeps _ h
      intro p arrival harrival hp
      exact hp.set (hgiven _ (List.of_mem_zip harrival).1)
  | insertBest _ hmem => exact h.set (hgiven _ hmem)
  | @anneal _ _ _ _ individual point _ _ hbest hlength =>
      have hindividual := hmembers individual (List.mem_of_getElem? (Selection.best_getElem? hbest))
      apply h.set
      apply sound_evaluated
      intro hchecks
      have hpoint := hlength.trans (hindividual.lengths hchecks).1
      refine ⟨hpoint, ?_⟩
      rw [List.length_zipWith, hpoint, (hindividual.lengths hchecks).1, Nat.min_self]

theorem AllSound.reevaluate {σ : Type} {problem : Problem α} {population : Population α}
    (h : AllSound problem population) (session : Session σ α) :
    ∃ next, Island.reevaluate { population, session } =
      .ok () { population, session := next } := by
  obtain ⟨rfl, hmembers⟩ := h
  obtain ⟨next, hreevaluate⟩ := reevaluate_population { population, session }
  have hsame : ∀ individual ∈ population.individuals,
      evaluated population.problem individual.decision individual.velocity = id individual := by
    intro individual hindividual
    have hsound := hmembers individual hindividual
    rw [evaluated, ← hsound.fitness_eq, ← hsound.constraints_eq]
    rfl
  refine ⟨next, ?_⟩
  rw [hreevaluate]
  simp only [List.map_congr_left hsame, List.map_id]

/-- Unless a problem has a check of its own, it checks the length of decisions. -/
theorem checksLength_of_default {problem : Problem α}
    (h : problem.verify = fun decision => do
      checkLength problem.dimension decision.length
      checkComponents problem.continuousDimension 0 problem.lower problem.upper decision) :
    ChecksLength problem := by
  intro decision hverify
  rw [h] at hverify
  cases hlength : (checkLength problem.dimension decision.length : Except (Violation α) Unit) with
  | error cause =>
      simp only [hlength] at hverify
      contradiction
  | ok => exact (checkLength_eq_ok_iff.mp hlength).symm

section Members

variable [Elementary α] [Extended α]

mutual

theorem Made.sound {problem : Problem α} {individual : Individual α} :
    Made problem individual → Sound problem individual
  | .created hcreated => sound_of_create hcreated
  | .withVelocity hmade hchanged => by
      rw [withVelocity_eq] at hchanged
      split at hchanged
      case h_1 => contradiction
      case h_2 hlength =>
        cases hchanged
        exact hmade.sound.withVelocity (checkLength_eq_ok_iff.mp hlength).symm
  | .copied hreached hmem => hreached.allSound.2 _ hmem

theorem Reached.allSound {problem : Problem α} {population : Population α} :
    Reached problem population → AllSound problem population
  | .new => ⟨rfl, fun _ h => absurd h List.not_mem_nil⟩
  | .step hreached hgiven hleads =>
    .of_effect (effect_of_leads hleads) (fun individual h => (hgiven individual h).sound)
      hreached.allSound

end

/-- Every member of a population carries the values of its own decision, and evaluating all of them
anew changes nothing. -/
theorem reached_fresh {problem : Problem α} {population : Population α}
    (h : Reached problem population) :
    (∀ individual ∈ population.individuals,
      individual.fitness = problem.objective individual.decision ∧
        individual.constraints = problem.constraints individual.decision ∧
        (ChecksLength problem → individual.velocity.length = individual.decision.length)) ∧
      ∀ (σ : Type) (session : Session σ α), ∃ next,
        Island.reevaluate { population, session } = .ok () { population, session := next } := by
  have hsound := h.allSound
  refine ⟨?_, fun σ session => hsound.reevaluate session⟩
  intro individual hindividual
  have hmember := hsound.2 individual hindividual
  refine ⟨hmember.fitness_eq, hmember.constraints_eq, ?_⟩
  intro hchecks
  rw [(hmember.lengths hchecks).1, (hmember.lengths hchecks).2]

end Members

theorem pushDecision_leads {problem : Problem Binary64} {decision : List Binary64}
    (h : problem.verify decision = .ok ()) :
    (Operation.pushDecision decision).Leads { problem }
      { problem
        individuals := [evaluated problem decision (List.replicate decision.length 0)] } := by
  let session : Session (Script Binary64) Binary64 := { source := .constant 0 }
  refine ⟨Script Binary64, inferInstance, session, ?_⟩
  rw [Operation.apply, pushDecision_eq]
  simp only [h]
  rfl

theorem reached_pushDecision {problem : Problem Binary64} {decision : List Binary64}
    (h : problem.verify decision = .ok ()) :
    Reached problem
      { problem
        individuals := [evaluated problem decision (List.replicate decision.length 0)] } := by
  refine .step .new ?_ (pushDecision_leads h)
  intro individual hindividual
  contradiction

theorem reached_endpoint : Reached interval endpoint :=
  reached_pushDecision rfl

theorem endpoint_fresh :
    Reached interval endpoint ∧ ∀ individual ∈ endpoint.individuals,
      individual.fitness = interval.objective individual.decision ∧
        individual.constraints = interval.constraints individual.decision ∧
        individual.velocity.length = individual.decision.length := by
  have hchecks : ChecksLength interval := checksLength_of_default rfl
  refine ⟨reached_endpoint, ?_⟩
  intro individual hindividual
  obtain ⟨hfitness, hconstraints, hlength⟩ :=
    (reached_fresh reached_endpoint).1 individual hindividual
  exact ⟨hfitness, hconstraints, hlength hchecks⟩

/-- A problem on the interval that accepts decisions of every length. -/
def lenient : Problem Binary64 :=
  { interval with verify := fun _ => .ok () }

/-- A problem on the interval with another objective. -/
def flat : Problem Binary64 :=
  { interval with objective := fun _ => [0] }

/-- A check that accepts decisions of several lengths lets a decision change its length, and the
velocity stays behind.  An individual from a population on another problem keeps the fitness that it
has there. -/
theorem reached_stale :
    (∃ population, Reached lenient population ∧ ∃ individual ∈ population.individuals,
      individual.velocity.length ≠ individual.decision.length) ∧
    Reached interval endpoint ∧ ∃ population, Reached flat population ∧
      ∃ individual ∈ population.individuals, ∃ next,
        (Operation.push individual).Leads endpoint next ∧ ∃ member ∈ next.individuals,
          member.fitness ≠ next.problem.objective member.decision := by
  let session : Session (Script Binary64) Binary64 := { source := .constant 0 }
  have hlenient : lenient.verify [1] = .ok () := rfl
  have hflat : flat.verify [1] = .ok () := rfl
  have hmoved : (Operation.setDecision 0 [1, 1]).Leads
      { problem := lenient, individuals := [evaluated lenient [1] [0]] }
      { problem := lenient, individuals := [evaluated lenient [1, 1] [0]] } :=
    ⟨Script Binary64, inferInstance, session, rfl⟩
  have hpushed : (Operation.push (evaluated flat [1] [0])).Leads endpoint
      (endpoint.push (evaluated flat [1] [0])) :=
    ⟨Script Binary64, inferInstance, session, rfl⟩
  have hnone : ∀ individual ∈ (Operation.setDecision 0 [1, 1]).individuals,
      Made lenient individual := by
    intro individual hindividual
    contradiction
  constructor
  · refine ⟨_, .step (reached_pushDecision hlenient) hnone hmoved, evaluated lenient [1, 1] [0],
      List.mem_singleton_self _, ?_⟩
    exact Nat.succ_ne_succ_iff.mpr Nat.zero_ne_one
  · refine ⟨reached_endpoint, _, reached_pushDecision hflat, evaluated flat [1] [0],
      List.mem_singleton_self _, _, hpushed, evaluated flat [1] [0], List.mem_concat_self, ?_⟩
    decide

end Archipelago.Proofs.Freshness
