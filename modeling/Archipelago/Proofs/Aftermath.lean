import Archipelago.Proofs.Independence
import Mathlib.Data.Nat.Cast.Defs

namespace Archipelago.Proofs.Aftermath

open Annealing
open Independence
open Runs
open Selection
open StrictPreference

variable {σ α : Type} [Scalar α]

/-- An individual that has moved to a better decision of the same problem.  Its integer part is the
same, its results are those of the new decision, and its velocity is the way that it has gone. -/
structure Bettered (problem : Problem α) (before after : Individual α) : Prop where
  length_eq : after.decision.length = before.decision.length
  kept : ∀ j, problem.continuousDimension ≤ j → after.decision[j]? = before.decision[j]?
  fitness_eq : after.fitness = problem.objective after.decision
  constraints_eq : after.constraints = problem.constraints after.decision
  better : problem.preference.fitness after.fitness before.fitness = true
  velocity_eq : after.velocity = after.decision.zipWith (· - ·) before.decision

/-- The fitness that a walk ends with is that of its last point, if it has moved at all, and else
the one that has been stored with the point that it starts from. -/
structure EndsAt (problem : Problem α) (start : Individual α) (last : Walk σ α) : Prop where
  moved : 0 < last.tally.accepted → last.fitness = problem.objective last.point
  unmoved : last.tally.accepted = 0 → last.point = start.decision ∧ last.fitness = start.fitness

section Walks

variable [Elementary α] [Source σ α] {annealer : Annealer α} {island : Island σ α} {stages : Nat}
  (hcheck : annealer.checkProblem island.population.problem = .ok stages) (best : Individual α)

include hcheck

theorem endsAt_lastWalk :
    EndsAt island.population.problem best (lastWalk annealer stages best island) := by
  obtain ⟨last, htracks, heq⟩ := exists_tracks_lastWalk hcheck best
  rw [heq]
  exact ⟨htracks.evaluated, htracks.unmoved⟩

theorem lastWalk_kept {j : Nat} (hj : island.population.problem.continuousDimension ≤ j) :
    (lastWalk annealer stages best island).point[j]? = best.decision[j]? := by
  obtain ⟨last, htracks, heq⟩ := exists_tracks_lastWalk hcheck best
  rw [heq]
  exact htracks.kept j hj

variable (hirrefl : ∀ fitness, island.population.problem.preference.fitness fitness fitness = false)

include hirrefl

theorem accepted_pos_of_improves
    (h : Improves island.population.problem best (lastWalk annealer stages best island)) :
    0 < (lastWalk annealer stages best island).tally.accepted := by
  apply Nat.pos_of_ne_zero
  intro hnone
  rw [Improves, ((endsAt_lastWalk hcheck best).unmoved hnone).2, hirrefl] at h
  contradiction

theorem bettered_improvement
    (h : Improves island.population.problem best (lastWalk annealer stages best island)) :
    Bettered island.population.problem best (improvement island.population.problem best
      (lastWalk annealer stages best island).point) := by
  have hmoved := (endsAt_lastWalk hcheck best).moved
    (accepted_pos_of_improves hcheck best hirrefl h)
  rw [Improves, hmoved] at h
  exact
    { length_eq := lastWalk_length hcheck best
      kept := fun j hj => lastWalk_kept hcheck best hj
      fitness_eq := rfl
      constraints_eq := rfl
      better := h
      velocity_eq := rfl }

end Walks

variable [Elementary α] [Extended α] [Source σ α] {annealer : Annealer α}

/-- A run that succeeds leaves every slot but that of the best individual as it is, and that one too
unless it reports an improvement.  It does so exactly if its walk ends with a fitness that is
preferred over the stored one, which takes at least one accepted move.  Then the slot holds the last
point of the walk, evaluated anew and better than what was stored. -/
theorem run_betters_best_or_leaves_all {island next : Island σ α} {report : Annealer.Report α}
    (hirrefl : ∀ fitness, island.population.problem.preference.fitness fitness fitness = false)
    (hrun : annealer.run island = .ok report next) :
    ∃ best last,
      island.population.best = .ok (best, report.bestIndex) ∧
      last = lastWalk annealer report.stages best island ∧ report.tally = last.tally ∧
      EndsAt island.population.problem best last ∧
      AgreeOn {report.bestIndex}ᶜ island.population next.population ∧
      (report.improved = false → next.population = island.population) ∧
      (report.improved = true → ∃ after, next.population.get? report.bestIndex = some after ∧
        after.decision = last.point ∧ Bettered island.population.problem best after) ∧
      (report.improved = true ↔
        island.population.problem.preference.fitness last.fitness best.fitness = true) ∧
      (report.tally.accepted = 0 → next.population = island.population) := by
  obtain ⟨stages, best, slot, hcheck, hbest, rfl, rfl⟩ := exists_of_run hrun
  have hslot := (List.getElem?_eq_some_iff.mp (best_getElem? hbest)).1
  have hends := endsAt_lastWalk hcheck best
  refine ⟨best, _, hbest, rfl, rfl, hends, ?_⟩
  by_cases himproves :
      Improves island.population.problem best (lastWalk annealer stages best island)
  · have hmoved := accepted_pos_of_improves hcheck best hirrefl himproves
    have hbettered := bettered_improvement hcheck best hirrefl himproves
    have himproved : (reported stages island.population.problem best slot
        (lastWalk annealer stages best island)).improved = true := decide_eq_true himproves
    rw [concluded_of_improves himproves, himproved]
    refine ⟨agreeOn_set_right (not_not.mpr rfl) _ _, nofun, fun _ => ?_,
      iff_of_true rfl himproves, fun hnone => absurd hnone hmoved.ne'⟩
    exact ⟨_, List.getElem?_set_self hslot, rfl, hbettered⟩
  · have himproved : (reported stages island.population.problem best slot
        (lastWalk annealer stages best island)).improved = false := decide_eq_false himproves
    rw [concluded_of_not_improves himproves, himproved]
    exact ⟨AgreeOn.refl _ _, fun _ => rfl, nofun, iff_of_false nofun himproves, fun _ => rfl⟩

/-- Annealing with a single proposal. -/
def hasty : Annealer Binary64 where
  config :=
    { totalIterations := 1
      startTemperature := 1
      endTemperature := 0.5
      perTemperature := 1
      perRangeAdjust := 1
      stepRange := 1 }
  check_eq := config_check_eq_ok_iff.mpr (by decide +kernel)

/-- The upper end of the interval with a fitness that is not its own. -/
def misjudged : Individual Binary64 where
  decision := [1]
  velocity := [0]
  fitness := [3]
  constraints := []

def neighbours : Island (Script Binary64) Binary64 where
  population :=
    { problem := interval
      individuals := [misjudged, { misjudged with fitness := [4] }] }
  session := { source := .constant 0.5 }

theorem misjudged_bettered :
    ∃ report next, hasty.run neighbours = .ok report next ∧ report.improved = true ∧
      next.population.get? 1 = neighbours.population.get? 1 ∧
      ∃ after, next.population.get? 0 = some after ∧ Bettered interval misjudged after := by
  have hcheck : hasty.checkProblem neighbours.population.problem = .ok 1 := rfl
  have hbest : neighbours.population.best = .ok (misjudged, 0) := rfl
  have himproves : Improves interval misjudged (lastWalk hasty 1 misjudged neighbours) := by
    decide +kernel
  obtain ⟨report, next, hrun, hstages⟩ : ∃ report next,
      hasty.run neighbours = .ok report next ∧ report.stages = 1 :=
    ⟨_, _, run_eq hcheck hbest, rfl⟩
  obtain ⟨best, last, hfound, hlast, -, -, hothers, -, hslot, himproved, -⟩ :=
    run_betters_best_or_leaves_all fitnessPrecedes_irrefl hrun
  obtain ⟨rfl, hindex⟩ := Prod.mk.inj (Except.ok.inj (hbest.symm.trans hfound))
  rw [← hindex] at hothers hslot
  rw [hstages] at hlast
  have htrue : report.improved = true := himproved.mpr (hlast ▸ himproves)
  obtain ⟨after, hafter, -, hbettered⟩ := hslot htrue
  exact ⟨report, next, hrun, htrue, (hothers.slot_eq 1 (by decide)).symm, after, hafter, hbettered⟩

end Archipelago.Proofs.Aftermath
