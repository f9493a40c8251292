import Archipelago.Proofs.Operations
import Archipelago.Proofs.StrictPreference
import Mathlib.Logic.Relation

/-!
Operations that never give up a member without something at least as good in its place.  What they
keep of a member is an individual that covers it, which unlike not being worse is transitive.
-/

namespace Archipelago.Proofs.Elitism

open Actions
open Merging
open Operations
open OrderedScalars
open StrictPreference
open Relation
open Runs
open Scans
open Selection
open SingleVector

variable {α : Type} [Scalar α]

/-- The problem compares results by default, and its functions return as many values as it says. -/
structure Declared (problem : Problem α) : Prop where
  standard : problem.preference = .standard
  objective_length : ∀ decision, (problem.objective decision).length = problem.fitnessDimension
  constraints_length : ∀ decision,
    (problem.constraints decision).length = problem.constraintDimension

/-- With several objectives no fitness value may be undefined. -/
def Comparable (problem : Problem α) (fitness : List α) : Prop :=
  problem.fitnessDimension = 1 ∨ AllDefined fitness

/-- An individual with as many values as the problem says. -/
structure Admissible (problem : Problem α) (individual : Individual α) : Prop where
  fitness_length : individual.fitness.length = problem.fitnessDimension
  constraints_length : individual.constraints.length = problem.constraintDimension
  comparable : Comparable problem individual.fitness

/-- Operations that keep the best individuals, if all the fitness values that come with them are
comparable. -/
def Elitist (problem : Problem α) : Operation α → Prop
  | .resetVelocities _ _ => True
  | .setVelocity _ _ => True
  | .anneal _ => True
  | .push individual => Comparable problem individual.fitness
  | .pushDecision decision => Comparable problem (problem.objective decision)
  | .insertDeme deme => ∀ individual ∈ deme.individuals, Comparable problem individual.fitness
  | _ => False

/-- The first individual has the values of the second one, or is preferred over it. -/
def Covers (problem : Problem α) (a b : Individual α) : Prop :=
  a.fitness = b.fitness ∧ a.constraints = b.constraints ∨ a.isPreferredOver problem b = true

def Covered (problem : Problem α) (before next : List (Individual α)) : Prop :=
  ∀ individual ∈ before, ∃ other ∈ next, Covers problem other individual

theorem covers_refl (problem : Problem α) (individual : Individual α) :
    Covers problem individual individual :=
  .inl ⟨rfl, rfl⟩

theorem covered_of_slotWise {problem : Problem α} {before next : List (Individual α)}
    (h : SlotWise (fun a b => Covers problem b a) before next) : Covered problem before next :=
  fun _ hindividual => h.exists_right hindividual

theorem covered_of_subset {problem : Problem α} {before next : List (Individual α)}
    (h : before ⊆ next) : Covered problem before next :=
  fun individual hindividual => ⟨individual, h hindividual, covers_refl problem individual⟩

theorem Admissible.rankable {problem : Problem α} {individual : Individual α}
    (h : Admissible problem individual) :
    Rankable problem.fitnessDimension individual.fitness :=
  ⟨h.fitness_length, h.comparable⟩

theorem admissible_of_checkShape {problem : Problem α} {individual : Individual α}
    (hshape : individual.checkShape problem = .ok ())
    (hcomparable : Comparable problem individual.fitness) : Admissible problem individual := by
  obtain ⟨-, -, hfitness, hconstraints⟩ := checkShape_eq_ok_iff.mp hshape
  exact ⟨hfitness, hconstraints, hcomparable⟩

theorem admissible_evaluated {problem : Problem α} (hdeclared : Declared problem)
    {decision : List α} (velocity : List α)
    (hcomparable : Comparable problem (problem.objective decision)) :
    Admissible problem (evaluated problem decision velocity) :=
  ⟨hdeclared.objective_length decision, hdeclared.constraints_length decision, hcomparable⟩

theorem admissible_of_steered {problem : Problem α} {a b : Individual α} (h : Steered a b)
    (ha : Admissible problem a) : Admissible problem b := by
  obtain ⟨_, -, rfl⟩ := h
  exact ⟨ha.fitness_length, ha.constraints_length, ha.comparable⟩

theorem covers_of_steered (problem : Problem α) {a b : Individual α} (h : Steered a b) :
    Covers problem b a := by
  obtain ⟨_, -, rfl⟩ := h
  exact covers_refl problem a

section Order

variable [OrderedScalar α] {problem : Problem α} (hstandard : problem.preference = .standard)

include hstandard

theorem Covers.trans {a b c : Individual α} (ha : Admissible problem a)
    (hb : Admissible problem b) (hc : Admissible problem c) (hab : Covers problem a b)
    (hbc : Covers problem b c) : Covers problem a c := by
  rcases hab with ⟨hfitness, hconstraints⟩ | hab
  · rw [Covers, Individual.isPreferredOver, hfitness, hconstraints]
    exact hbc
  · rcases hbc with ⟨hfitness, hconstraints⟩ | hbc
    · rw [Individual.isPreferredOver, hfitness, hconstraints] at hab
      exact .inr hab
    · exact .inr (isPreferredOver_trans hstandard ha.rankable hb.rankable hc.rankable hab hbc)

theorem strictOn_of_admissible {individuals : List (Individual α)}
    (h : ∀ individual ∈ individuals, Admissible problem individual) :
    StrictOn (fun a b => Individual.isPreferredOver problem a b) individuals :=
  strictOn_of_rankable hstandard fun individual hindividual => (h individual hindividual).rankable

/-- An individual that covers one over which another one is not preferred is not beaten either. -/
theorem not_preferred_of_covers {a b c : Individual α} (ha : Admissible problem a)
    (hb : Admissible problem b) (hc : Admissible problem c) (hab : Covers problem a b)
    (hac : a.isPreferredOver problem c = false) : b.isPreferredOver problem c = false := by
  rcases hab with ⟨hfitness, hconstraints⟩ | hab
  · rw [Individual.isPreferredOver, hfitness, hconstraints] at hac
    exact hac
  · rw [Bool.eq_false_iff] at *
    intro hbc
    exact hac (isPreferredOver_trans hstandard ha.rankable hb.rankable hc.rankable hab hbc)

end Order

section Steps

variable [OrderedScalar α] {problem : Problem α}

/-- A later population on the same problem whose members cover all individuals before. -/
structure Kept (problem : Problem α) (before : List (Individual α)) (next : Population α) :
    Prop where
  problem_eq : next.problem = problem
  admissible : ∀ individual ∈ next.individuals, Admissible problem individual
  covered : Covered problem before next.individuals

/-- A later population that covers all individuals before slot by slot. -/
structure SlotWiseKept (problem : Problem α) (before : List (Individual α))
    (next : Population α) : Prop where
  problem_eq : next.problem = problem
  admissible : ∀ individual ∈ next.individuals, Admissible problem individual
  covered : SlotWise (fun a b => Covers problem b a) before next.individuals

omit [OrderedScalar α] in
theorem SlotWiseKept.kept {before : List (Individual α)} {next : Population α}
    (h : SlotWiseKept problem before next) : Kept problem before next :=
  ⟨h.problem_eq, h.admissible, covered_of_slotWise h.covered⟩

variable (hdeclared : Declared problem)

include hdeclared

theorem SlotWiseKept.set {before : List (Individual α)} {next : Population α}
    (hbefore : ∀ individual ∈ before, Admissible problem individual)
    (h : SlotWiseKept problem before next) {slot : Nat} {occupant individual : Individual α}
    (hslot : next.individuals[slot]? = some occupant) (hindividual : Admissible problem individual)
    (hcovers : Covers problem individual occupant) :
    SlotWiseKept problem before (next.set slot individual) where
  problem_eq := h.problem_eq
  admissible other hother := by
    rcases List.mem_or_eq_of_mem_set hother with hother | rfl
    · exact h.admissible other hother
    · exact hindividual
  covered := by
    apply h.covered.set
    intro first hfirst
    exact Covers.trans hdeclared.standard hindividual
      (h.admissible occupant (List.mem_of_getElem? hslot))
      (hbefore first (List.mem_of_getElem? hfirst)) hcovers
      (h.covered.related slot first occupant hfirst hslot)

omit hdeclared [OrderedScalar α] in
theorem kept_push {before : Population α} (hproblem : before.problem = problem)
    (hbefore : ∀ individual ∈ before.individuals, Admissible problem individual)
    {individual : Individual α} (hindividual : Admissible problem individual) :
    Kept problem before.individuals (before.push individual) where
  problem_eq := hproblem
  admissible other hother := by
    rcases List.mem_append.mp hother with hother | hother
    · exact hbefore other hother
    · rw [List.mem_singleton.mp hother]
      exact hindividual
  covered := covered_of_subset (List.subset_append_left _ _)

/-- The point at which an improving run ends is preferred over the one that it starts from. -/
theorem improvement_preferred {annealer : Annealer α} {stages : Nat} {individual : Individual α}
    {point fitness : List α} (hsupported : annealer.checkProblem problem = .ok stages)
    (hindividual : Admissible problem individual)
    (himproves : problem.preference.fitness fitness individual.fitness = true)
    (hwalked : fitness = individual.fitness ∨ fitness = problem.objective point) :
    Admissible problem (improvement problem individual point) ∧
      (improvement problem individual point).isPreferredOver problem individual = true := by
  obtain ⟨-, hunconstrained, hsingle, -⟩ := checkProblem_eq_ok_iff.mp hsupported
  have hprecedes : fitnessPrecedes (problem.objective point) individual.fitness = true := by
    rw [hdeclared.standard] at himproves
    rcases hwalked with rfl | rfl
    · have hirrefl := fitnessPrecedes_irrefl individual.fitness
      exact absurd (himproves.symm.trans hirrefl) (by decide)
    · exact himproves
  have hnone : problem.constraints point = [] := by
    rw [← List.length_eq_zero_iff, hdeclared.constraints_length, hunconstrained]
  have hnone' : individual.constraints = [] := by
    rw [← List.length_eq_zero_iff, hindividual.constraints_length, hunconstrained]
  refine ⟨admissible_evaluated hdeclared _ (.inl hsingle), ?_⟩
  rw [Individual.isPreferredOver, hdeclared.standard, standard_solutions_iff]
  refine .inl ⟨?_, ?_, hprecedes⟩
  · change feasible (problem.constraints point) = true
    rw [hnone]
    rfl
  · rw [hnone']
    rfl

theorem kept_of_effect [Extended α] {operation : Operation α} {before next : Population α}
    (heffect : Effect operation before next) (hproblem : before.problem = problem)
    (helitist : Elitist problem operation)
    (hbefore : ∀ individual ∈ before.individuals, Admissible problem individual) :
    Kept problem before.individuals next := by
  have hself : SlotWiseKept problem before.individuals before :=
    ⟨hproblem, hbefore, SlotWise.refl fun individual _ => covers_refl problem individual⟩
  -- Appending and overwriting a covered occupant are all that is left of the effects.
  cases heffect with
  | unchanged => exact hself.kept
  | createRandom | substitute | setDecision | reevaluate | insertDemeForced | insertBest =>
      exact helitist.elim
  | resetVelocities hsteered =>
      refine ⟨hproblem, ?_, ?_⟩
      · intro individual hindividual
        obtain ⟨first, hfirst, h⟩ := hsteered.exists_left hindividual
        exact admissible_of_steered h (hbefore first hfirst)
      · intro individual hindividual
        obtain ⟨other, hother, h⟩ := hsteered.exists_right hindividual
        exact ⟨other, hother, covers_of_steered problem h⟩
  | push hshape =>
      rw [hproblem] at hshape
      exact kept_push hproblem hbefore (admissible_of_checkShape hshape helitist)
  | pushDecision =>
      rw [hproblem]
      exact kept_push hproblem hbefore (admissible_evaluated hdeclared _ helitist)
  | @setVelocity _ _ individual velocity hslot hlength =>
      have hsteered : Steered individual { individual with velocity } :=
        ⟨velocity, .inr hlength, rfl⟩
      have hindividual := hbefore individual (List.mem_of_getElem? hslot)
      exact (hself.set hdeclared hbefore hslot (admissible_of_steered hsteered hindividual)
        (covers_of_steered problem hsteered)).kept
  | insertDeme hchecked =>
      obtain ⟨-, -, hshapes⟩ := check_eq_ok_iff.mp hchecked
      rw [hproblem] at hshapes
      -- The occupant may have arrived just before, but what it took its place from is covered.
      refine SlotWiseKept.kept (merge_keeps ?_ hself)
      intro p arrival harrival occupant hp hslot hpreferred
      have hmem := (List.of_mem_zip harrival).1
      rw [hp.problem_eq] at hpreferred
      exact hp.set hdeclared hbefore hslot
        (admissible_of_checkShape (hshapes _ hmem) (helitist _ hmem)) (.inr hpreferred)
  | anneal hsupported hbest hlength himproves hwalked =>
      rw [hproblem] at hsupported himproves hwalked ⊢
      have hslot := best_getElem? hbest
      obtain ⟨hadmissible, hpreferred⟩ := improvement_preferred hdeclared hsupported
        (hbefore _ (List.mem_of_getElem? hslot)) himproves hwalked
      exact (hself.set hdeclared hbefore hslot hadmissible (.inr hpreferred)).kept

theorem Kept.trans {first : List (Individual α)}
    {before next : Population α} (hfirst : ∀ individual ∈ first, Admissible problem individual)
    (hbefore : Kept problem first before) (hnext : Kept problem before.individuals next) :
    Kept problem first next where
  problem_eq := hnext.problem_eq
  admissible := hnext.admissible
  covered individual hindividual := by
    obtain ⟨middle, hmiddle, hcovers⟩ := hbefore.covered individual hindividual
    obtain ⟨last, hlast, hlast'⟩ := hnext.covered middle hmiddle
    refine ⟨last, hlast, ?_⟩
    exact Covers.trans hdeclared.standard (hnext.admissible last hlast)
      (hbefore.admissible middle hmiddle) (hfirst individual hindividual) hlast' hcovers

theorem Kept.not_preferred_over_best [Extended α] {before : List (Individual α)}
    {next : Population α} (hbefore : ∀ individual ∈ before, Admissible problem individual)
    (h : Kept problem before next) {best : Individual α} {slot : Nat}
    (hbest : next.best = .ok (best, slot)) {individual : Individual α}
    (hindividual : individual ∈ before) : individual.isPreferredOver problem best = false := by
  obtain ⟨other, hother, hcovers⟩ := h.covered individual hindividual
  have hfound := bestOf_of_best hbest
  rw [h.problem_eq] at hfound
  have hmem := List.mem_of_getElem? (best_getElem? hbest)
  have hstrict := strictOn_of_admissible hdeclared.standard h.admissible
  have hnot := bestOf_not_beaten hstrict hfound other hother
  exact not_preferred_of_covers hdeclared.standard (h.admissible other hother)
    (hbefore individual hindividual) (h.admissible best hmem) hcovers hnot

end Steps

section Runs

variable [OrderedScalar α] [Elementary α] [Extended α] {problem : Problem α}

/-- One operation that keeps the best individuals, whatever comes of it. -/
def Step (before next : Population α) : Prop :=
  ∃ operation : Operation α, Elitist before.problem operation ∧ operation.Leads before next

theorem kept_of_run (hdeclared : Declared problem) {population later : Population α}
    (hproblem : population.problem = problem)
    (hmembers : ∀ individual ∈ population.individuals, Admissible problem individual)
    (hrun : ReflTransGen Step population later) : Kept problem population.individuals later := by
  induction hrun with
  | refl => exact ⟨hproblem, hmembers, covered_of_subset (List.Subset.refl _)⟩
  | tail _ hstep ih =>
      obtain ⟨operation, helitist, hleads⟩ := hstep
      rw [ih.problem_eq] at helitist
      exact ih.trans hdeclared hmembers
        (kept_of_effect hdeclared (effect_of_leads hleads) ih.problem_eq helitist ih.admissible)

end Runs

/-- Elitism over whole runs.  Every member is covered at every later moment, and the best member is
never preferred over a later best one. -/
theorem run_keeps_best {population later : Population Binary64}
    (hdeclared : Declared population.problem)
    (hlengths : ∀ individual ∈ population.individuals,
      individual.fitness.length = population.problem.fitnessDimension ∧
        individual.constraints.length = population.problem.constraintDimension)
    (hdefined : population.problem.fitnessDimension = 1 ∨
      ∀ individual ∈ population.individuals, ∀ x ∈ individual.fitness, x.isNaN = false)
    (hne : population.individuals ≠ []) (hrun : ReflTransGen Step population later) :
    (∀ individual ∈ population.individuals, ∃ other ∈ later.individuals,
      other.fitness = individual.fitness ∧ other.constraints = individual.constraints ∨
        other.isPreferredOver population.problem individual = true) ∧
    ∃ best slot best' slot', population.best = .ok (best, slot) ∧
      later.best = .ok (best', slot') ∧
        best.isPreferredOver population.problem best' = false := by
  have hmembers : ∀ individual ∈ population.individuals,
      Admissible population.problem individual := by
    intro individual hindividual
    obtain ⟨hfitness, hconstraints⟩ := hlengths individual hindividual
    refine ⟨hfitness, hconstraints, ?_⟩
    exact hdefined.imp_right fun h => allDefined_iff.mpr (h individual hindividual)
  have hkept := kept_of_run hdeclared rfl hmembers hrun
  obtain ⟨best, slot, hbest⟩ := exists_best hne
  have hmem := List.mem_of_getElem? (best_getElem? hbest)
  obtain ⟨other, hother, -⟩ := hkept.covered best hmem
  obtain ⟨best', slot', hbest'⟩ := exists_best (List.ne_nil_of_mem hother)
  refine ⟨hkept.covered, best, slot, best', slot', hbest, hbest', ?_⟩
  exact hkept.not_preferred_over_best hdeclared hmembers hbest' hmem

theorem declared_interval : Declared interval where
  standard := rfl
  objective_length _ := rfl
  constraints_length _ := rfl

def midpoint : Individual Binary64 :=
  evaluated interval [0] [0]

/-- The population after the individual in the middle has been merged into the only slot. -/
def merged : Population Binary64 where
  problem := interval
  individuals := [midpoint]

theorem step_merged : Step endpoint merged := by
  let deme : Deme Binary64 := { individuals := [midpoint], picks := [0] }
  have hshape : midpoint.checkShape interval = .ok () :=
    checkShape_eq_ok_iff.mpr ⟨rfl, rfl, rfl, rfl⟩
  have hcheck : deme.check endpoint = .ok () := by
    refine check_eq_ok_iff.mpr ⟨rfl, rfl, ?_⟩
    intro individual hindividual
    rw [List.mem_singleton.mp hindividual]
    exact hshape
  refine ⟨.insertDeme deme, fun _ _ => .inl rfl, Script Binary64, inferInstance,
    intervalIsland.session, ?_⟩
  rw [Operation.apply, insertDeme_eq, hcheck]
  rfl

theorem merged_keeps_best :
    ReflTransGen Step endpoint merged ∧
    (∀ individual ∈ endpoint.individuals, ∃ other ∈ merged.individuals,
      other.fitness = individual.fitness ∧ other.constraints = individual.constraints ∨
        other.isPreferredOver interval individual = true) ∧
    ∃ best slot best' slot', endpoint.best = .ok (best, slot) ∧
      merged.best = .ok (best', slot') ∧ best.isPreferredOver interval best' = false := by
  have hlengths : ∀ individual ∈ endpoint.individuals,
      individual.fitness.length = interval.fitnessDimension ∧
        individual.constraints.length = interval.constraintDimension := by
    intro individual hindividual
    rw [List.mem_singleton.mp hindividual]
    exact ⟨rfl, rfl⟩
  have hne : endpoint.individuals ≠ [] := List.cons_ne_nil _ _
  have hrun : ReflTransGen Step endpoint merged := .single step_merged
  exact ⟨hrun, run_keeps_best declared_interval hlengths (.inl rfl) hne hrun⟩

end Archipelago.Proofs.Elitism
