import Archipelago.Proofs.Runs
import Archipelago.Proofs.Sweeps

namespace Archipelago.Proofs.Positions

open Annealing
open Runs
open Selection
open SingleVector
open Sweeps

variable {σ α : Type} [Scalar α]

/-- The walk has a step and a counter for each component. -/
structure Equipped (course : Course α) (walk : Walk σ α) : Prop where
  steps_length : walk.steps.length = course.problem.continuousDimension
  accepted_length : walk.accepted.length = course.problem.continuousDimension

/-- A walk from the individual finds a number at each position that it reads. -/
structure Indexable (problem : Problem α) (individual : Individual α) : Prop where
  lower_le : problem.continuousDimension ≤ problem.lower.length
  upper_le : problem.continuousDimension ≤ problem.upper.length
  decision_le : problem.continuousDimension ≤ individual.decision.length
  fitness_pos : 0 < individual.fitness.length
  objective_pos : ∀ decision, decision.length = individual.decision.length →
    0 < (problem.objective decision).length

theorem Indexable.fitness_length_pos {problem : Problem α} {individual : Individual α}
    {s : Stroll σ α} (h : Indexable problem individual) (htracks : Tracks problem individual s) :
    0 < s.fitness.length := by
  rcases Nat.eq_zero_or_pos s.tally.accepted with hnone | hsome
  · rw [(htracks.unmoved hnone).2]
    exact h.fitness_pos
  · rw [htracks.evaluated hsome]
    exact h.objective_pos s.point htracks.length_eq

section Equipment

variable {course : Course α} {walk : Walk σ α}

theorem Equipped.next_lt (h : Equipped course walk)
    (hc : 0 < course.problem.continuousDimension) :
    (walk.position + 1) % course.problem.continuousDimension < walk.accepted.length :=
  h.accepted_length.symm ▸ Nat.mod_lt _ hc

theorem Equipped.adjust_accepted (h : Equipped course walk) :
    (walk.adjust course).accepted = List.replicate course.problem.continuousDimension 0 := by
  rw [← h.accepted_length]
  exact List.map_const'

theorem Equipped.adjust (h : Equipped course walk) : Equipped course (walk.adjust course) := by
  constructor
  · change (List.zipWith _ walk.steps walk.accepted).length = _
    rw [List.length_zipWith, h.steps_length, h.accepted_length, Nat.min_self]
  · rw [h.adjust_accepted, List.length_replicate]

variable [Elementary α] [Source σ α]

theorem Equipped.move (h : Equipped course walk) (move : Move) :
    Equipped course (walk.move course move) := by
  cases move with
  | aim => exact ⟨h.steps_length, h.accepted_length⟩
  | propose =>
      obtain ⟨-, hsteps, ⟨haccepted, -⟩ | ⟨haccepted, -⟩⟩ := propose_effect course walk
      · exact ⟨hsteps ▸ h.steps_length, haccepted ▸ h.accepted_length⟩
      · refine ⟨hsteps ▸ h.steps_length, ?_⟩
        change (walk.propose course).accepted.length = _
        rw [haccepted, List.length_modify, h.accepted_length]
  | adjust => exact h.adjust
  | cool stage => exact ⟨h.steps_length, h.accepted_length⟩

theorem Equipped.follow (h : Equipped course walk) (moves : List Move) :
    Equipped course (walk.follow course moves) := by
  induction moves generalizing walk with
  | nil => exact h
  | cons move moves ih => exact ih (h.move move)

end Equipment

section Walks

variable [Elementary α] [Source σ α] {course : Course α} {walk next : Walk σ α}

theorem judge_of_judge? {fitness : List α} (h : walk.judge? course fitness = some next) :
    walk.judge course fitness = next := by
  rw [Walk.judge?] at h
  split at h
  · exact Option.some.inj h
  · contradiction

theorem propose_of_propose? (h : walk.propose? course = some next) :
    walk.propose course = next := by
  rw [Walk.propose?] at h
  rw [Walk.propose]
  split at h
  · simp only at h ⊢
    split at h
    case isTrue houtside =>
      rw [if_pos houtside]
      exact Option.some.inj h
    case isFalse hinside =>
      rw [if_neg hinside]
      exact judge_of_judge? h
  · contradiction

theorem move_of_move? {move : Move} (h : walk.move? course move = some next) :
    walk.move course move = next := by
  cases move with
  | aim | adjust => exact Option.some.inj h
  | propose => exact propose_of_propose? h
  | cool stage =>
      rw [Walk.move?] at h
      split at h
      · exact Option.some.inj h
      · contradiction

theorem follow_of_follow? {moves : List Move} (h : walk.follow? course moves = some next) :
    walk.follow course moves = next := by
  induction moves generalizing walk with
  | nil => exact Option.some.inj h
  | cons move moves ih =>
      rw [Walk.follow?, List.foldlM_cons] at h
      obtain ⟨moved, hmove, hrest⟩ := Option.bind_eq_some_iff.mp h
      rw [← ih hrest, ← move_of_move? hmove]
      rfl

variable {individual : Individual α} {s : Stroll σ α}
  (hc : 0 < course.problem.continuousDimension) (h : Indexable course.problem individual)
  (htracks : Tracks course.problem individual s) (hequipped : Equipped course s.toWalk)

include hc h htracks hequipped

omit [Elementary α] [Source σ α] in
theorem hasPlace_toWalk : s.toWalk.HasPlace course := by
  have hlt := Nat.mod_lt (s.position + 1) hc
  have hpoint := hlt.trans_le (h.decision_le.trans_eq htracks.length_eq.symm)
  exact ⟨⟨hpoint, hpoint⟩, ⟨hequipped.steps_length ▸ hlt, hequipped.next_lt hc⟩,
    hlt.trans_le h.lower_le, hlt.trans_le h.upper_le⟩

theorem propose?_toWalk : s.toWalk.propose? course = some (s.toWalk.propose course) := by
  rw [Walk.propose?, if_pos (hasPlace_toWalk hc h htracks hequipped), Walk.propose]
  simp only
  split
  · rfl
  · have hevaluated := h.objective_pos (s.toWalk.draft course).2.trial
      (List.length_set.trans htracks.length_eq)
    exact if_pos (.inr ⟨hevaluated, h.fitness_length_pos htracks⟩)

theorem move?_toWalk (move : Move) :
    s.toWalk.move? course move = some (s.toWalk.move course move) := by
  cases move with
  | aim | adjust => rfl
  | propose => exact propose?_toWalk hc h htracks hequipped
  | cool stage => exact if_pos (h.fitness_length_pos htracks)

theorem follow?_toWalk (moves : List Move) :
    s.toWalk.follow? course moves = some (s.toWalk.follow course moves) := by
  induction moves generalizing s with
  | nil => rfl
  | cons move moves ih =>
      have hmoved := hequipped.move move
      rw [Walk.follow?, List.foldlM_cons, move?_toWalk hc h htracks hequipped, move_toWalk]
      rw [move_toWalk] at hmoved
      rw [Walk.follow, List.foldl_cons, move_toWalk]
      exact ih (tracks_move hc htracks move) hmoved

end Walks

section Runs

variable [Elementary α] [Source σ α] [Extended α] {annealer : Annealer α} {island : Island σ α}

/-- A run that is not broken off has never read a position that a vector does not have. -/
theorem run_of_run? {result : EStateM.Result (Error α) (Island σ α) (Annealer.Report α)}
    (h : annealer.run? island = some result) : annealer.run island = result := by
  rw [Annealer.run?] at h
  cases hcheck : annealer.checkProblem island.population.problem with
  | error cause =>
      rw [run_of_unsupported hcheck]
      simp only [hcheck, Option.some.injEq] at h
      exact h
  | ok stages =>
      cases hbest : island.population.best with
      | error cause =>
          rw [run_of_empty hcheck hbest]
          simp only [hcheck, hbest, Option.some.injEq] at h
          exact h
      | ok found =>
          obtain ⟨individual, slot⟩ := found
          simp only [hcheck, hbest] at h
          obtain ⟨fitness, hfitness, h⟩ := Option.bind_eq_some_iff.mp h
          obtain ⟨last, hwalk, h⟩ := Option.bind_eq_some_iff.mp h
          have hlast : lastWalk annealer stages individual island = last := by
            rw [lastWalk, List.headD_eq_head?_getD, hfitness]
            exact follow_of_follow? hwalk
          rw [run_eq_conclude hcheck hbest, hlast]
          exact Option.some.inj h

theorem run?_eq_some {stages slot : Nat} {individual : Individual α}
    (hcheck : annealer.checkProblem island.population.problem = .ok stages)
    (hbest : island.population.best = .ok (individual, slot))
    (h : Indexable island.population.problem individual) :
    annealer.run? island = some (annealer.run island) := by
  have hc := Nat.pos_of_ne_zero (checkProblem_eq_ok_iff.mp hcheck).1
  obtain ⟨fitness, rest, hfitness⟩ := List.exists_cons_of_length_pos h.fitness_pos
  let base : Session σ α := (Session.report (.annealingStarted annealer.name stages fitness
    island.population.problem.name) island.session).2
  have hequipped : Equipped (annealer.course island.population.problem stages)
      (startStroll annealer island.population.problem individual base).toWalk :=
    ⟨List.length_replicate, List.length_replicate⟩
  have hwalk : annealer.walk? island.population.problem stages individual base =
      some (annealer.walk island.population.problem stages individual base) :=
    follow?_toWalk hc h (tracks_start annealer _ individual base) hequipped _
  have hlast : lastWalk annealer stages individual island =
      annealer.walk island.population.problem stages individual base := by
    rw [lastWalk, hfitness]
    rfl
  rw [run_eq_conclude hcheck hbest, hlast, Annealer.run?, hcheck, hbest]
  simp only [hfitness]
  exact congrArg (Option.bind · _) hwalk

end Runs

end Archipelago.Proofs.Positions
