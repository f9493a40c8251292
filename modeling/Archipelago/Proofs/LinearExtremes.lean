import Archipelago.Proofs.PreferenceOrder
import Archipelago.Proofs.Runs

namespace Archipelago.Proofs.LinearExtremes

open Actions
open PreferenceOrder
open Runs
open Scans
open Selection
open StrictPreference

section Slots

variable {α : Type} [Scalar α] {population : Population α}

/-- No member is preferred over the one in this slot. -/
def Undefeated (population : Population α) (slot : Nat) : Prop :=
  ∃ x, population.get? slot = some x ∧
    ∀ y ∈ population.individuals, y.isPreferredOver population.problem x = false

/-- The one in this slot is preferred over no member. -/
def Winless (population : Population α) (slot : Nat) : Prop :=
  ∃ x, population.get? slot = some x ∧
    ∀ y ∈ population.individuals, x.isPreferredOver population.problem y = false

theorem mem_take_of_get? {slot i : Nat} (hi : i < slot) {x : Individual α}
    (hx : population.get? i = some x) : x ∈ population.individuals.take slot :=
  List.mem_of_getElem? ((List.getElem?_take_of_lt hi).trans hx)

variable [Extended α] (hsingle : population.problem.fitnessDimension ≤ 1)

include hsingle

theorem firstBest_of_best {best : Individual α} {slot : Nat}
    (h : population.best = .ok (best, slot)) :
    firstBest (fun a b => a.isPreferredOver population.problem b) population.individuals =
      some (best, slot) := by
  rw [← bestOf_of_single hsingle]
  exact bestOf_of_best h

theorem firstBest_of_worst {worst : Individual α} {slot : Nat}
    (h : population.worst = .ok (worst, slot)) :
    firstBest (fun a b => b.isPreferredOver population.problem a) population.individuals =
      some (worst, slot) := by
  rw [← worstOf_of_single hsingle]
  exact worstOf_of_worst h

end Slots

section Standard

/-- What the members of a population are compared by. -/
def outcome (x : Individual Binary64) : Outcome where
  fitness := x.fitness
  constraints := x.constraints

variable {problem : Problem Binary64} {individuals : List (Individual Binary64)}
  (hstandard : problem.preference = .standard)

include hstandard

theorem isPreferredOver_iff_beats (x y : Individual Binary64) :
    x.isPreferredOver problem y = true ↔ (outcome x).Beats (outcome y) := by
  rw [Individual.isPreferredOver, hstandard]
  exact Iff.rfl

variable (hlengths : ∀ x ∈ individuals, x.fitness.length = 1)

include hlengths

theorem strictOn_of_lengths :
    StrictOn (fun a b => Individual.isPreferredOver problem a b) individuals := by
  have hranked : ∀ x ∈ individuals, (outcome x).Ranked 1 := fun x hx => ⟨hlengths x hx, .inl rfl⟩
  constructor
  · intro x _
    exact isPreferredOver_irrefl hstandard x
  · intro x hx y hy z hz
    simp only [isPreferredOver_iff_beats hstandard]
    exact Outcome.Beats.trans (hranked x hx) (hranked y hy) (hranked z hz)

theorem tiesTransitiveOn_of_defined
    (hdefined : ∀ x ∈ individuals, ∀ value ∈ x.fitness, value.isNaN = false) :
    TiesTransitiveOn (fun a b => Individual.isPreferredOver problem a b) individuals := by
  have hsingle : ∀ x ∈ individuals, (outcome x).Single := fun x hx =>
    ⟨hlengths x hx, hdefined x hx⟩
  intro x hx y hy z hz
  simp only [Tied, ← Bool.not_eq_true, isPreferredOver_iff_beats hstandard]
  rintro ⟨hxy, hyx⟩ ⟨hyz, hzy⟩
  exact ⟨Outcome.not_beats_of_incomparable (hsingle x hx) (hsingle y hy) (hsingle z hz) hxy hyz,
    Outcome.not_beats_of_incomparable (hsingle z hz) (hsingle y hy) (hsingle x hx) hzy hyx⟩

end Standard

/-- As long as preference is a strict order on the members, nobody is preferred over the best one
and the worst one is preferred over nobody.  If ties are transitive too, then both are the first of
their kind, and they differ from all earlier members.  By default preference is a strict order on
members with one fitness value each, and ties are transitive if all of these values are defined. -/
theorem first_undefeated_and_winless {population : Population Binary64}
    (hsingle : population.problem.fitnessDimension ≤ 1) (hne : population.individuals ≠ []) :
    (StrictOn (fun a b => a.isPreferredOver population.problem b) population.individuals →
      ∃ best slot worst slot',
        population.best = .ok (best, slot) ∧ population.get? slot = some best ∧
        population.worst = .ok (worst, slot') ∧ population.get? slot' = some worst ∧
        Undefeated population slot ∧ Winless population slot' ∧
        (TiesTransitiveOn (fun a b => a.isPreferredOver population.problem b)
            population.individuals →
          IsLeast { i | Undefeated population i } slot ∧
          (∀ i < slot, ∀ x, population.get? i = some x →
            best.isPreferredOver population.problem x = true) ∧
          IsLeast { i | Winless population i } slot' ∧
          ∀ i < slot', ∀ x, population.get? i = some x →
            x.isPreferredOver population.problem worst = true)) ∧
    (population.problem.preference = .standard →
      (∀ x ∈ population.individuals, x.fitness.length = 1) →
        StrictOn (fun a b => a.isPreferredOver population.problem b) population.individuals ∧
        ((∀ x ∈ population.individuals, ∀ value ∈ x.fitness, value.isNaN = false) →
          TiesTransitiveOn (fun a b => a.isPreferredOver population.problem b)
            population.individuals)) := by
  constructor
  · intro hstrict
    obtain ⟨best, slot, hbest⟩ := exists_best hne
    obtain ⟨worst, slot', hworst⟩ := exists_worst hne
    have hfirst := firstBest_of_best hsingle hbest
    have hfirst' := firstBest_of_worst hsingle hworst
    have hget := firstBest_getElem? hfirst
    have hget' := firstBest_getElem? hfirst'
    refine ⟨best, slot, worst, slot', hbest, hget, hworst, hget',
      ⟨best, hget, firstBest_not_beaten hfirst hstrict⟩,
      ⟨worst, hget', firstBest_not_beaten hfirst' hstrict.flip⟩, fun hties => ?_⟩
    have hweak := hstrict.weakOn hties
    refine ⟨firstBest_isLeast hfirst hweak, ?_, firstBest_isLeast hfirst' hweak.flip, ?_⟩
    · intro i hi x hx
      exact firstBest_beats_earlier hfirst hweak x (mem_take_of_get? hi hx)
    · intro i hi x hx
      exact firstBest_beats_earlier hfirst' hweak.flip x (mem_take_of_get? hi hx)
  · intro hstandard hlengths
    exact ⟨strictOn_of_lengths hstandard hlengths, tiesTransitiveOn_of_defined hstandard hlengths⟩

/-- Two pairs of equals on the interval. -/
def twins : Population Binary64 where
  problem := interval
  individuals := [1, 0, 0, 1].map fun x => evaluated interval [x] [0]

theorem twins_first :
    (∃ best, twins.best = .ok (best, 1)) ∧ ∃ worst, twins.worst = .ok (worst, 0) := by
  have hlengths : ∀ x ∈ twins.individuals, x.fitness.length = 1 := by decide +kernel
  have hdefined : ∀ x ∈ twins.individuals, ∀ value ∈ x.fitness, value.isNaN = false := by
    decide +kernel
  obtain ⟨hscan, hdefault⟩ :=
    @first_undefeated_and_winless twins (by decide) (List.cons_ne_nil _ _)
  obtain ⟨hstrict, hties⟩ := hdefault rfl hlengths
  obtain ⟨best, slot, worst, slot', hbest, -, hworst, -, hundefeated, -, hfirst⟩ := hscan hstrict
  obtain ⟨hleast, -, hleast', -⟩ := hfirst (hties hdefined)
  have hsecond : Undefeated twins 1 := ⟨evaluated interval [0] [0], rfl, by decide +kernel⟩
  have hloses : Winless twins 0 := ⟨evaluated interval [1] [0], rfl, by decide +kernel⟩
  have hle : slot ≤ 1 := hleast.2 hsecond
  have hle' : slot' ≤ 0 := hleast'.2 hloses
  have hne : slot ≠ 0 := by
    rintro rfl
    obtain ⟨x, hx, hnone⟩ := hundefeated
    obtain rfl : evaluated interval [1] [0] = x := Option.some.inj hx
    have hbeaten : (evaluated interval [0] [0]).isPreferredOver interval
        (evaluated interval [1] [0]) = false := hnone _ (List.mem_of_getElem? (i := 1) rfl)
    exact absurd hbeaten (by decide +kernel)
  obtain rfl : slot = 1 := by omega
  obtain rfl := Nat.le_zero.mp hle'
  exact ⟨⟨best, hbest⟩, worst, hworst⟩

end Archipelago.Proofs.LinearExtremes
