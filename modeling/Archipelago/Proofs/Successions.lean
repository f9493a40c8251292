import Archipelago.Proofs.Elitism

namespace Archipelago.Proofs.Successions

open Elitism
open OrderedScalars
open Runs
open Scans
open Selection
open SingleVector

variable {α : Type} [Scalar α]

/-- A run with the population that it starts from and the one that it leaves. -/
structure Round (α : Type) [Scalar α] where
  before : Population α
  report : Annealer.Report α
  next : Population α

/-- The individual in a slot before a run is there after it too, or has made room for a better
one. -/
def Advances [Extended α] (problem : Problem α) (slot : Nat) (round : Round α) : Prop :=
  ∃ individual individual', round.before.best = .ok (individual, slot) ∧
    round.next.best = .ok (individual', slot) ∧
    (round.report.improved = false ∧ individual' = individual ∨
      round.report.improved = true ∧ individual'.isPreferredOver problem individual = true)

/-- A run that takes place in one slot of a population. -/
structure StaysOn [Extended α] (population : Population α) (slot : Nat) (round : Round α) :
    Prop where
  bestIndex_eq : round.report.bestIndex = slot
  problem_eq : round.next.problem = population.problem
  size_eq : round.next.size = population.size
  get?_eq : ∀ i, i ≠ slot → round.next.get? i = population.get? i
  advances : Advances population.problem slot round

/-- Runs that all succeed, one after the other, each of them by an annealer of its own and with a
source of its own. -/
inductive Succession [Elementary α] [Extended α] :
    Population α → List (Round α) → Population α → Prop
  | nil (population : Population α) : Succession population [] population
  | cons {σ : Type} [Source σ α] {annealer : Annealer α} {session session' : Session σ α}
      {report : Annealer.Report α} {before next last : Population α} {rounds : List (Round α)}
      (run : annealer.run { population := before, session } =
        .ok report { population := next, session := session' })
      (rest : Succession next rounds last) :
      Succession before ({ before, report, next } :: rounds) last

theorem StaysOn.trans [Extended α] {population : Population α} {slot : Nat} {first round : Round α}
    (hfirst : StaysOn population slot first) (h : StaysOn first.next slot round) :
    StaysOn population slot round where
  bestIndex_eq := h.bestIndex_eq
  problem_eq := h.problem_eq.trans hfirst.problem_eq
  size_eq := h.size_eq.trans hfirst.size_eq
  get?_eq i hi := (h.get?_eq i hi).trans (hfirst.get?_eq i hi)
  advances := hfirst.problem_eq ▸ h.advances

/-- As many values as the problem says. -/
def FitsProblem (problem : Problem α) (individual : Individual α) : Prop :=
  individual.fitness.length = problem.fitnessDimension ∧
    individual.constraints.length = problem.constraintDimension

section OneRun

variable [OrderedScalar α] [Extended α]

theorem best_set {population : Population α}
    (hstandard : population.problem.preference = .standard)
    (hsingle : population.problem.fitnessDimension = 1)
    (hmembers : ∀ individual ∈ population.individuals,
      Admissible population.problem individual)
    {best better : Individual α} {slot : Nat} (hbest : population.best = .ok (best, slot))
    (hbetter : Admissible population.problem better)
    (hpreferred : better.isPreferredOver population.problem best = true) :
    (population.set slot better).best = .ok (better, slot) := by
  have hstrict : StrictOn (fun a b => Individual.isPreferredOver population.problem a b)
      (better :: population.individuals) :=
    strictOn_of_admissible hstandard (List.forall_mem_cons.mpr ⟨hbetter, hmembers⟩)
  have hfound := bestOf_of_best hbest
  rw [bestOf_of_single hsingle.le] at hfound
  have hset := firstBest_set hfound hstrict hpreferred
  rw [← bestOf_of_single hsingle.le] at hset
  simp only [Population.best, Population.set, hset]

variable [Elementary α] {σ : Type} [Source σ α] {annealer : Annealer α}
  {before next : Population α} {session session' : Session σ α} {report : Annealer.Report α}
  (hdeclared : Declared before.problem)
  (hmembers : ∀ individual ∈ before.individuals, FitsProblem before.problem individual)
  {best : Individual α} {slot : Nat} (hbest : before.best = .ok (best, slot))
  (hrun : annealer.run { population := before, session } =
    .ok report { population := next, session := session' })

include hdeclared hmembers hbest hrun

/-- A run leaves the population, or overwrites the best individual by a better one. -/
theorem run_cases : report.bestIndex = slot ∧
    (report.improved = false ∧ next = before ∨
      report.improved = true ∧ ∃ better, Admissible before.problem better ∧
        better.isPreferredOver before.problem best = true ∧ next = before.set slot better) := by
  obtain ⟨stages, individual, slot', hcheck, hfound, rfl, hisland⟩ := exists_of_run hrun
  obtain ⟨rfl, rfl⟩ := Prod.mk.inj (Except.ok.inj (hbest.symm.trans hfound))
  obtain ⟨-, -, hsingle, -⟩ := checkProblem_eq_ok_iff.mp hcheck
  have hnext := congrArg Island.population hisland
  refine ⟨rfl, ?_⟩
  by_cases himproves : Improves before.problem best
      (lastWalk annealer stages best { population := before, session })
  · have hfits := hmembers best (List.mem_of_getElem? (best_getElem? hbest))
    have hbetter := improvement_preferred hdeclared hcheck ⟨hfits.1, hfits.2, .inl hsingle⟩
      himproves (lastWalk_fitness hcheck best)
    exact .inr ⟨decide_eq_true himproves, _, hbetter.1, hbetter.2,
      hnext.trans (concluded_of_improves himproves)⟩
  · exact .inl ⟨decide_eq_false himproves, hnext.trans (concluded_of_not_improves himproves)⟩

theorem staysOn_of_run :
    StaysOn before slot { before, report, next } ∧
      ∀ individual ∈ next.individuals, FitsProblem before.problem individual := by
  obtain ⟨hindex, ⟨hsame, rfl⟩ | ⟨himproved, better, hbetter, hpreferred, rfl⟩⟩ :=
    run_cases hdeclared hmembers hbest hrun
  · refine ⟨⟨hindex, rfl, rfl, fun _ _ => rfl, ?_⟩, hmembers⟩
    exact ⟨best, best, hbest, hbest, .inl ⟨hsame, rfl⟩⟩
  · obtain ⟨stages, -, -, hcheck, -⟩ := exists_of_run hrun
    obtain ⟨-, -, hsingle, -⟩ := checkProblem_eq_ok_iff.mp hcheck
    have hadmissible : ∀ individual ∈ before.individuals,
        Admissible before.problem individual := fun individual hmem =>
      ⟨(hmembers individual hmem).1, (hmembers individual hmem).2, .inl hsingle⟩
    have hbest' := best_set hdeclared.standard hsingle hadmissible hbest hbetter hpreferred
    constructor
    · refine ⟨hindex, rfl, List.length_set, ?_, ?_⟩
      · intro i hi
        exact List.getElem?_set_ne (Ne.symm hi)
      · exact ⟨best, better, hbest, hbest', .inr ⟨himproved, hpreferred⟩⟩
    · intro individual hmem
      rcases List.mem_or_eq_of_mem_set hmem with hmem | rfl
      · exact hmembers individual hmem
      · exact ⟨hbetter.fitness_length, hbetter.constraints_length⟩

end OneRun

theorem staysOn_of_succession [OrderedScalar α] [Elementary α] [Extended α]
    {population last : Population α} {rounds : List (Round α)}
    (h : Succession population rounds last) (hdeclared : Declared population.problem)
    (hmembers : ∀ individual ∈ population.individuals, FitsProblem population.problem individual)
    {best : Individual α} {slot : Nat} (hbest : population.best = .ok (best, slot)) :
    (∀ round ∈ rounds, StaysOn population slot round) ∧
      ∃ best', last.best = .ok (best', slot) := by
  induction h generalizing best with
  | nil => exact ⟨nofun, best, hbest⟩
  | @cons σ _ annealer session session' report before next last rounds hrun _ ih =>
      obtain ⟨hstays, hmembers'⟩ := staysOn_of_run hdeclared hmembers hbest hrun
      obtain ⟨-, individual, -, hbest', -⟩ := hstays.advances
      have hproblem : next.problem = before.problem := hstays.problem_eq
      obtain ⟨hrest, hlast⟩ := ih (hproblem ▸ hdeclared) (hproblem ▸ hmembers') hbest'
      refine ⟨List.forall_mem_cons.mpr ⟨hstays, ?_⟩, hlast⟩
      intro round hround
      exact hstays.trans (hrest round hround)

/-- Successive runs all take place in the slot of the best individual.  Nothing else changes, and
the best individual is in that slot after the last one too. -/
theorem successive_runs_stay_on_slot {population last : Population Binary64}
    {rounds : List (Round Binary64)} (hdeclared : Declared population.problem)
    (hlengths : ∀ individual ∈ population.individuals,
      individual.fitness.length = population.problem.fitnessDimension ∧
        individual.constraints.length = population.problem.constraintDimension)
    (hne : population.individuals ≠ []) (h : Succession population rounds last) :
    ∃ best slot, population.best = .ok (best, slot) ∧
      (∀ round ∈ rounds, StaysOn population slot round) ∧
      ∃ best', last.best = .ok (best', slot) := by
  obtain ⟨best, slot, hbest⟩ := exists_best hne
  exact ⟨best, slot, hbest, staysOn_of_succession h hdeclared hlengths hbest⟩

theorem exists_run [Elementary α] [Extended α] {σ : Type} [Source σ α] {annealer : Annealer α}
    {population : Population α} {stages slot : Nat} {best : Individual α}
    (hcheck : annealer.checkProblem population.problem = .ok stages)
    (hbest : population.best = .ok (best, slot)) (session : Session σ α) :
    ∃ report next session', annealer.run { population, session } =
      .ok report { population := next, session := session' } :=
  ⟨_, _, _, run_eq hcheck hbest⟩

theorem endpoint_runs_stay_on_slot :
    ∃ first second last, Succession endpoint [first, second] last ∧
      ∃ best slot, endpoint.best = .ok (best, slot) ∧
        (∀ round ∈ [first, second], StaysOn endpoint slot round) ∧
        ∃ best', last.best = .ok (best', slot) := by
  have hcheck : standardAnnealer.checkProblem endpoint.problem = .ok 10000 := rfl
  have hlengths : ∀ individual ∈ endpoint.individuals,
      individual.fitness.length = interval.fitnessDimension ∧
        individual.constraints.length = interval.constraintDimension := by
    intro individual hindividual
    rw [List.mem_singleton.mp hindividual]
    exact ⟨rfl, rfl⟩
  have hne : endpoint.individuals ≠ [] := List.cons_ne_nil _ _
  obtain ⟨best, slot, hbest⟩ := exists_best hne
  obtain ⟨report, middle, session, hrun⟩ := exists_run hcheck hbest intervalIsland.session
  have hfirst : Succession endpoint [{ before := endpoint, report, next := middle }] middle :=
    .cons hrun (.nil middle)
  obtain ⟨_, _, -, hstays, _, hbest'⟩ :=
    successive_runs_stay_on_slot declared_interval hlengths hne hfirst
  have hproblem : middle.problem = endpoint.problem :=
    (hstays _ List.mem_cons_self).problem_eq
  obtain ⟨report', last, session', hrun'⟩ := exists_run (hproblem ▸ hcheck) hbest' session
  have hsecond : Succession endpoint [{ before := endpoint, report, next := middle },
      { before := middle, report := report', next := last }] last :=
    .cons hrun (.cons hrun' (.nil last))
  exact ⟨_, _, _, hsecond, successive_runs_stay_on_slot declared_interval hlengths hne hsecond⟩

end Archipelago.Proofs.Successions
