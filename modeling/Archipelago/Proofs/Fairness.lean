import Archipelago.Proofs.Positions
import Mathlib.Algebra.BigOperators.Group.List.Basic
import Mathlib.Algebra.GroupWithZero.Nat
import Mathlib.Data.List.GetD

namespace Archipelago.Proofs.Fairness

open Annealing
open Layering
open Positions
open Runs
open Selection
open SingleVector
open Sweeps

variable {σ α : Type} [Scalar α] [Elementary α] [Source σ α]

/-- An adjustment of one step. -/
structure Rescaling (α : Type) where
  step : α
  accepted : Nat
  trials : Nat
  largest : α

def Rescaling.result (rescaling : Rescaling α) : α :=
  rescaleStep rescaling.step rescaling.accepted rescaling.trials rescaling.largest

/-- The adjustments that a move makes. -/
def rescale (course : Course α) (walk : Walk σ α) : Move → List (Rescaling α)
  | .adjust =>
    walk.steps.zipWith
      (fun step accepted =>
        { step, accepted, trials := course.config.perRangeAdjust
          largest := course.config.stepRange })
      walk.accepted
  | _ => []

def rescalings (course : Course α) (walk : Walk σ α) (moves : List Move) : List (Rescaling α) :=
  record course (rescale course) walk moves

omit [Elementary α] [Source σ α] in
theorem adjust_steps (course : Course α) (walk : Walk σ α) :
    (walk.adjust course).steps = (rescale course walk .adjust).map Rescaling.result := by
  rw [rescale, List.map_zipWith]
  rfl

/-- All counters are zero. -/
structure Rested (course : Course α) (walk : Walk σ α) : Prop extends Equipped course walk where
  accepted_eq : walk.accepted = List.replicate course.problem.continuousDimension 0

section Counters

variable {course : Course α} {walk : Walk σ α}

omit [Elementary α] [Source σ α] in
theorem rested_adjust (h : Equipped course walk) : Rested course (walk.adjust course) :=
  ⟨h.adjust, h.adjust_accepted⟩

omit [Scalar α] [Elementary α] [Source σ α] in
theorem sum_modify_succ {counts : List Nat} {i : Nat} (hi : i < counts.length) :
    (counts.modify i (· + 1)).sum = counts.sum + 1 := by
  induction counts generalizing i with
  | nil => contradiction
  | cons count counts ih =>
      cases i with
      | zero =>
          rw [List.modify_zero_cons, List.sum_cons, List.sum_cons]
          omega
      | succ i =>
          rw [List.modify_succ_cons, List.sum_cons, List.sum_cons,
            ih (Nat.lt_of_succ_lt_succ hi), Nat.add_assoc]

variable (hc : 0 < course.problem.continuousDimension)

include hc

theorem accepted_move_le (h : Equipped course walk) {move : Move} (hmove : move ≠ .adjust)
    (i : Nat) :
    (walk.move course move).accepted.getD i 0 ≤
      walk.accepted.getD i 0 + (visit course walk move).count i := by
  cases move with
  | adjust => contradiction
  | aim | cool => exact Nat.le_refl _
  | propose =>
      change (walk.propose course).accepted.getD i 0 ≤ _
      obtain ⟨hposition, -, ⟨haccepted, -⟩ | ⟨haccepted, -⟩⟩ := propose_effect course walk
      · rw [haccepted]
        exact Nat.le_add_right _ _
      · rw [haccepted, getD_modify_succ (h.next_lt hc), visit, hposition]

theorem accepted_le_visits (h : Equipped course walk) {moves : List Move}
    (hmoves : .adjust ∉ moves) (i : Nat) :
    (walk.follow course moves).accepted.getD i 0 ≤
      walk.accepted.getD i 0 + (visits course walk moves).count i := by
  induction moves generalizing walk with
  | nil => exact Nat.le_refl _
  | cons move moves ih =>
      rw [List.mem_cons, not_or] at hmoves
      have hmove := accepted_move_le hc h (Ne.symm hmoves.1) i
      have hrest := ih (h.move move) hmoves.2
      rw [visits, record, List.count_append]
      exact hrest.trans ((Nat.add_le_add_right hmove _).trans_eq (Nat.add_assoc ..))

omit [Elementary α] [Source σ α] hc in
theorem map_accepted_rescale (h : Equipped course walk) :
    (rescale course walk .adjust).map Rescaling.accepted = walk.accepted := by
  rw [rescale, List.map_zipWith]
  exact (List.map_zip_eq_zipWith (f := Prod.snd)).symm.trans
    (List.map_snd_zip (h.accepted_length.trans h.steps_length.symm).le)

theorem sum_accepted_move (h : Equipped course walk) (move : Move) :
    walk.accepted.sum + (walk.move course move).tally.accepted =
      ((rescale course walk move).map Rescaling.accepted).sum +
        (walk.move course move).accepted.sum + walk.tally.accepted := by
  cases move with
  | aim | cool => exact congrArg (· + walk.tally.accepted) (Nat.zero_add _).symm
  | propose =>
      change _ + (walk.propose course).tally.accepted = 0 + (walk.propose course).accepted.sum + _
      obtain ⟨-, -, ⟨haccepted, htally⟩ | ⟨haccepted, htally⟩⟩ := propose_effect course walk
      · rw [haccepted, htally, Nat.zero_add]
      · rw [haccepted, htally, sum_modify_succ (h.next_lt hc)]
        omega
  | adjust =>
      change walk.accepted.sum + walk.tally.accepted = _ + (walk.adjust course).accepted.sum + _
      rw [map_accepted_rescale h, h.adjust_accepted, List.sum_replicate_nat, Nat.mul_zero,
        Nat.add_zero]

/-- Every acceptance is counted once, by the counter of its component. -/
theorem sum_accepted (h : Equipped course walk) (moves : List Move) :
    walk.accepted.sum + (walk.follow course moves).tally.accepted =
      ((rescalings course walk moves).map Rescaling.accepted).sum +
        (walk.follow course moves).accepted.sum + walk.tally.accepted := by
  induction moves generalizing walk with
  | nil => exact (Nat.zero_add _).symm ▸ rfl
  | cons move moves ih =>
      have hmove := sum_accepted_move hc h move
      have hrest := ih (h.move move)
      have hfollow : walk.follow course (move :: moves) =
          (walk.move course move).follow course moves := rfl
      rw [hfollow, rescalings, record, ← rescalings, List.map_append, List.sum_append]
      omega

end Counters

variable (σ) in
/-- Every component has had its share of proposals whenever the steps are adjusted, and also at the
end.  No more than this share has been accepted. -/
structure Balanced (course : Course α) (moves : List Move) : Prop where
  adjusted : ∀ before after, moves = before ++ .adjust :: after → ∀ walk : Walk σ α,
    ∀ i < course.problem.continuousDimension, (visits course walk before).count i =
      course.config.perRangeAdjust * (before.count .adjust + 1)
  total : ∀ walk : Walk σ α, ∀ i < course.problem.continuousDimension,
    (visits course walk moves).count i = course.config.perRangeAdjust * moves.count .adjust
  rested : ∀ walk : Walk σ α, Rested course walk → Rested course (walk.follow course moves)
  ratio : ∀ walk : Walk σ α, Rested course walk → ∀ rescaling ∈ rescalings course walk moves,
    rescaling.trials = course.config.perRangeAdjust ∧ rescaling.accepted ≤ rescaling.trials

section Balanced

variable {course : Course α} {first rest : List Move}

theorem Balanced.append (hfirst : Balanced σ course first) (hrest : Balanced σ course rest) :
    Balanced σ course (first ++ rest) := by
  constructor
  · intro before after h walk i hi
    rcases append_eq_append_cons h with ⟨middle, heq, -⟩ | ⟨middle, rfl, heq⟩
    · exact hfirst.adjusted before middle heq walk i hi
    · rw [visits_append, List.count_append, hfirst.total walk i hi,
        hrest.adjusted middle after heq _ i hi, List.count_append, ← Nat.mul_add, Nat.add_assoc]
  · intro walk i hi
    rw [visits_append, List.count_append, hfirst.total walk i hi, hrest.total _ i hi,
      List.count_append, Nat.mul_add]
  · intro walk hwalk
    rw [follow_append]
    exact hrest.rested _ (hfirst.rested walk hwalk)
  · intro walk hwalk rescaling hmem
    rw [rescalings, record_append] at hmem
    rcases List.mem_append.mp hmem with hmem | hmem
    · exact hfirst.ratio walk hwalk rescaling hmem
    · exact hrest.ratio _ (hfirst.rested walk hwalk) rescaling hmem

theorem rescalings_of_not_mem (walk : Walk σ α) (h : .adjust ∉ first) :
    rescalings course walk first = [] := by
  induction first generalizing walk with
  | nil => rfl
  | cons move moves ih =>
      rw [List.mem_cons, not_or] at h
      rw [rescalings, record, ← rescalings, ih _ h.2, List.append_nil]
      cases move with
      | adjust => exact absurd rfl h.1
      | aim | propose | cool => rfl

theorem balanced_of_idle (hadjust : .adjust ∉ first) (hvisits : ∀ walk : Walk σ α,
    visits course walk first = []) (hrested : ∀ walk : Walk σ α, Rested course walk →
    Rested course (walk.follow course first)) : Balanced σ course first := by
  constructor
  · rintro before after rfl
    exact absurd List.mem_append_cons_self hadjust
  · intro walk i _
    rw [hvisits, List.count_eq_zero_of_not_mem hadjust]
    rfl
  · exact hrested
  · intro walk _ rescaling hmem
    rw [rescalings_of_not_mem walk hadjust] at hmem
    contradiction

theorem balanced_flatten {parts : List (List Move)} (h : ∀ part ∈ parts, Balanced σ course part) :
    Balanced σ course parts.flatten := by
  induction parts with
  | nil => exact balanced_of_idle List.not_mem_nil (fun _ => rfl) fun _ h => h
  | cons part parts ih =>
      obtain ⟨hpart, hparts⟩ := List.forall_mem_cons.mp h
      exact hpart.append (ih hparts)

theorem balanced_cool (index : Nat) : Balanced σ course [.cool index] :=
  balanced_of_idle (by simp) (fun _ => rfl) fun _ h =>
    ⟨⟨h.steps_length, h.accepted_length⟩, h.accepted_eq⟩

theorem adjust_not_mem_sweeps (sweeps components : Nat) :
    .adjust ∉ (List.replicate sweeps (sweep components)).flatten := by
  simp [sweep, List.mem_flatten]

theorem eq_of_concat_adjust {sweeps before after : List Move} (hnot : .adjust ∉ sweeps)
    (h : sweeps ++ [.adjust] = before ++ .adjust :: after) : before = sweeps := by
  rcases append_eq_append_cons h with ⟨middle, rfl, -⟩ | ⟨middle, rfl, heq⟩
  · exact absurd List.mem_append_cons_self hnot
  · have hlength := congrArg List.length heq
    simp only [List.length_append, List.length_cons, List.length_nil] at hlength
    obtain rfl : middle = [] := List.eq_nil_of_length_eq_zero (by omega)
    exact List.append_nil _

theorem accepted_le_of_rested (hc : 0 < course.problem.continuousDimension) {walk : Walk σ α}
    (hwalk : Rested course walk) {sweeps : List Move} (hnot : .adjust ∉ sweeps) {n : Nat}
    (hcount : ∀ i < course.problem.continuousDimension, (visits course walk sweeps).count i = n)
    {rescaling : Rescaling α}
    (hmem : rescaling ∈ rescale course (walk.follow course sweeps) .adjust) :
    rescaling.trials = course.config.perRangeAdjust ∧ rescaling.accepted ≤ n := by
  rw [rescale] at hmem
  obtain ⟨i, hi, rfl⟩ := List.getElem_of_mem hmem
  rw [List.getElem_zipWith]
  refine ⟨rfl, ?_⟩
  -- the counters begin at zero, so that they are not ahead of the proposals
  have hlt : i < (walk.follow course sweeps).accepted.length := by
    rw [List.length_zipWith] at hi
    exact hi.trans_le (Nat.min_le_right _ _)
  have hcomponent := (hwalk.toEquipped.follow sweeps).accepted_length ▸ hlt
  have hle := accepted_le_visits hc hwalk.toEquipped hnot i
  rw [hcount i hcomponent, hwalk.accepted_eq, List.getD_eq_getElem _ _ hlt,
    List.getD_replicate _ hcomponent, Nat.zero_add] at hle
  exact hle

theorem balanced_block (hc : 0 < course.problem.continuousDimension) :
    Balanced σ course
      (block course.config.perRangeAdjust course.problem.continuousDimension) := by
  have hnot := adjust_not_mem_sweeps course.config.perRangeAdjust course.problem.continuousDimension
  have hcount := fun (walk : Walk σ α) i hi =>
    count_visits_sweeps course walk (i := i) hi course.config.perRangeAdjust
  rw [block]
  generalize (List.replicate course.config.perRangeAdjust
    (sweep course.problem.continuousDimension)).flatten = sweeps at hnot hcount ⊢
  constructor
  · intro before after h walk i hi
    rw [eq_of_concat_adjust hnot h, hcount walk i hi, List.count_eq_zero_of_not_mem hnot,
      Nat.zero_add, Nat.mul_one]
  · intro walk i hi
    rw [visits_append, List.count_append, hcount walk i hi, List.count_append,
      List.count_eq_zero_of_not_mem hnot]
    exact (Nat.mul_one _).symm
  · intro walk hwalk
    rw [follow_append]
    exact rested_adjust (hwalk.toEquipped.follow sweeps)
  · intro walk hwalk rescaling hmem
    rw [rescalings, record_append, ← rescalings, rescalings_of_not_mem walk hnot, List.nil_append]
      at hmem
    change rescaling ∈ rescale course (walk.follow course sweeps) .adjust ++ [] at hmem
    rw [List.append_nil] at hmem
    obtain ⟨htrials, hle⟩ := accepted_le_of_rested hc hwalk hnot (hcount walk) hmem
    exact ⟨htrials, htrials ▸ hle⟩

theorem balanced_schedule (hc : 0 < course.problem.continuousDimension) (stages : Nat) :
    Balanced σ course (schedule stages course.config.perTemperature course.config.perRangeAdjust
      course.problem.continuousDimension) := by
  rw [schedule, List.flatMap_def]
  refine balanced_flatten fun part hpart => ?_
  obtain ⟨index, -, rfl⟩ := List.mem_map.mp hpart
  refine Balanced.append (balanced_flatten fun part hpart => ?_) (balanced_cool index)
  rw [List.eq_of_mem_replicate hpart]
  exact balanced_block hc

theorem Balanced.between {moves before between after : List Move} (h : Balanced σ course moves)
    (hmoves : moves = before ++ (between ++ .adjust :: after))
    (hbefore : before = [] ∨ ∃ earlier, before = earlier ++ [.adjust])
    (hbetween : .adjust ∉ between)
    (walk : Walk σ α) {i : Nat} (hi : i < course.problem.continuousDimension) :
    (visits course (walk.follow course before) between).count i = course.config.perRangeAdjust := by
  have hsum := h.adjusted (before ++ between) after (by rw [hmoves, List.append_assoc]) walk i hi
  have hfirst : (visits course walk before).count i =
      course.config.perRangeAdjust * before.count .adjust := by
    rcases hbefore with rfl | ⟨earlier, rfl⟩
    · rfl
    · rw [visits_append, List.count_append, h.adjusted earlier (between ++ .adjust :: after)
        (by rw [hmoves, List.append_assoc]; rfl) walk i hi, List.count_append]
      rfl
  rw [visits_append, List.count_append, hfirst, List.count_append,
    List.count_eq_zero_of_not_mem hbetween, Nat.add_zero, Nat.mul_succ] at hsum
  exact Nat.add_left_cancel hsum

end Balanced

omit [Scalar α] [Elementary α] [Source σ α] in
theorem count_adjust_schedule (stages blocks sweeps components : Nat) :
    (schedule stages blocks sweeps components).count .adjust = stages * blocks := by
  have hblock : (block sweeps components).count .adjust = 1 := by
    rw [block, List.count_append,
      List.count_eq_zero_of_not_mem (adjust_not_mem_sweeps sweeps components)]
    rfl
  have hstage : ∀ index, (stage blocks sweeps components index).count .adjust = blocks := by
    intro index
    simp [stage, List.count_flatten, hblock]
  simp [schedule, List.count_flatMap, Function.comp_def, hstage]

/-- Every sweep makes one proposal for each component, whatever component it begins with, so that
every component has the same number of proposals between two adjustments and in the whole walk. -/
structure SweepsFairly (course : Course α) (stages : Nat) (walk : Walk σ α) (moves : List Move) :
    Prop where
  sweep_perm : ∀ before after, moves = before ++ .aim :: after →
    (∃ rest, .aim :: after = sweep course.problem.continuousDimension ++ rest) ∧
      (visits course (walk.follow course before)
        (sweep course.problem.continuousDimension)).Perm
        (List.range course.problem.continuousDimension)
  between : ∀ before between after, moves = before ++ (between ++ .adjust :: after) →
    (before = [] ∨ ∃ earlier, before = earlier ++ [.adjust]) → .adjust ∉ between →
    ∀ i < course.problem.continuousDimension,
      (visits course (walk.follow course before) between).count i = course.config.perRangeAdjust
  total : ∀ i < course.problem.continuousDimension, (visits course walk moves).count i =
    stages * course.config.perTemperature * course.config.perRangeAdjust

/-- The steps are adjusted by ratios.  Each adjustment is made for every component, from its number
of acceptances since the one before. -/
structure AdjustsByRatios (course : Course α) (walk : Walk σ α) (moves : List Move) : Prop where
  adjusted : ∀ before after, moves = before ++ .adjust :: after →
    let rescaled := rescale course (walk.follow course before) .adjust
    rescaled.length = course.problem.continuousDimension ∧
      rescaled.map Rescaling.accepted = (walk.follow course before).accepted ∧
      (walk.follow course (before ++ [.adjust])).steps = rescaled.map Rescaling.result ∧
      (walk.follow course (before ++ [.adjust])).accepted =
        List.replicate course.problem.continuousDimension 0
  ratio : ∀ rescaling ∈ rescalings course walk moves,
    0 < rescaling.trials ∧ rescaling.accepted ≤ rescaling.trials

section Runs

variable {annealer : Annealer α} {problem : Problem α} {stages : Nat}

omit [Source σ α] in
theorem rested_start (individual : Individual α) (session : Session σ α) :
    Rested (annealer.course problem stages) (annealer.start problem individual session) :=
  ⟨⟨List.length_replicate, List.length_replicate⟩, rfl⟩

omit [Elementary α] in
theorem perRangeAdjust_pos (hcheck : annealer.checkProblem problem = .ok stages) :
    0 < annealer.config.perRangeAdjust := by
  obtain ⟨-, -, -, hstages, hne⟩ := checkProblem_eq_ok_iff.mp hcheck
  refine Nat.pos_of_ne_zero fun hzero => hne ?_
  have hsaturated : saturated 0 = 0 := Nat.zero_min _
  have hnone : annealer.config.iterationsPerStage problem.continuousDimension = 0 := by
    rw [Config.iterationsPerStage, hzero, Nat.mul_zero, hsaturated, Nat.zero_mul, hsaturated]
  rw [← hstages, Config.stages, hnone, Nat.div_zero]

theorem sweepsFairly_walk (hcheck : annealer.checkProblem problem = .ok stages)
    (walk : Walk σ α) :
    SweepsFairly (annealer.course problem stages) stages walk (annealer.moves problem stages) := by
  have hc : 0 < (annealer.course problem stages).problem.continuousDimension :=
    Nat.pos_of_ne_zero (checkProblem_eq_ok_iff.mp hcheck).1
  have hbalanced : Balanced σ (annealer.course problem stages) (annealer.moves problem stages) :=
    balanced_schedule hc stages
  constructor
  · intro before after h
    obtain ⟨rest, rfl⟩ := swept_schedule _ _ _ before after h
    exact ⟨⟨rest, rfl⟩, visits_sweep_perm _ _⟩
  · intro before between after h hbefore hbetween i hi
    exact hbalanced.between h hbefore hbetween walk hi
  · intro i hi
    rw [hbalanced.total walk i hi, Annealer.moves, count_adjust_schedule, Nat.mul_comm]
    rfl

theorem adjustsByRatios_walk (hcheck : annealer.checkProblem problem = .ok stages)
    {walk : Walk σ α} (hwalk : Rested (annealer.course problem stages) walk) :
    AdjustsByRatios (annealer.course problem stages) walk (annealer.moves problem stages) := by
  have hc : 0 < (annealer.course problem stages).problem.continuousDimension :=
    Nat.pos_of_ne_zero (checkProblem_eq_ok_iff.mp hcheck).1
  have hbalanced : Balanced σ (annealer.course problem stages) (annealer.moves problem stages) :=
    balanced_schedule hc stages
  constructor
  · intro before after _ rescaled
    have hequipped := hwalk.toEquipped.follow before
    have haccepted := map_accepted_rescale hequipped
    refine ⟨?_, haccepted, ?_, ?_⟩
    · rw [← hequipped.accepted_length, ← haccepted, List.length_map]
    · rw [follow_append]
      exact adjust_steps _ _
    · rw [follow_append]
      exact hequipped.adjust_accepted
  · intro rescaling hmem
    obtain ⟨htrials, hle⟩ := hbalanced.ratio walk hwalk rescaling hmem
    exact ⟨htrials ▸ perRangeAdjust_pos hcheck, hle⟩

theorem sum_rescalings_walk (hcheck : annealer.checkProblem problem = .ok stages)
    {walk : Walk σ α} (hwalk : Rested (annealer.course problem stages) walk)
    (hnone : walk.tally.accepted = 0) :
    ((rescalings (annealer.course problem stages) walk (annealer.moves problem stages)).map
        Rescaling.accepted).sum =
      (walk.follow (annealer.course problem stages)
        (annealer.moves problem stages)).tally.accepted := by
  have hc : 0 < (annealer.course problem stages).problem.continuousDimension :=
    Nat.pos_of_ne_zero (checkProblem_eq_ok_iff.mp hcheck).1
  have hsum := sum_accepted hc hwalk.toEquipped (annealer.moves problem stages)
  have hlast : Rested (annealer.course problem stages)
      (walk.follow (annealer.course problem stages) (annealer.moves problem stages)) :=
    (balanced_schedule hc stages).rested walk hwalk
  rw [hwalk.accepted_eq, hlast.accepted_eq, hnone, List.sum_replicate_nat, Nat.mul_zero,
    Nat.zero_add, Nat.add_zero] at hsum
  exact hsum.symm

end Runs

/-- What the walk of a run begins with. -/
def departure (annealer : Annealer α) (stages : Nat) (individual : Individual α)
    (island : Island σ α) : Walk σ α :=
  annealer.start island.population.problem individual
    (Session.report (.annealingStarted annealer.name stages (individual.fitness.headD 0)
      island.population.problem.name) island.session).2

/-- The sweeps of a run are fair, and its acceptance ratios are ratios.  The acceptances by which it
adjusts its steps are all those that it reports. -/
theorem run_sweeps_fairly [Extended α] (annealer : Annealer α) (island next : Island σ α)
    (report : Annealer.Report α) (h : annealer.run island = .ok report next) :
    ∃ individual slot,
      island.population.best = .ok (individual, slot) ∧
      let course := annealer.course island.population.problem report.stages
      let walk := departure annealer report.stages individual island
      let moves := annealer.moves island.population.problem report.stages
      next = concluded annealer individual slot (walk.follow course moves) island.population ∧
        SweepsFairly course report.stages walk moves ∧
        AdjustsByRatios course walk moves ∧
        ((rescalings course walk moves).map Rescaling.accepted).sum = report.tally.accepted := by
  obtain ⟨stages, individual, slot, hcheck, hbest, rfl, rfl⟩ := exists_of_run h
  have hrested : Rested (annealer.course island.population.problem stages)
      (departure annealer stages individual island) := rested_start individual _
  exact ⟨individual, slot, hbest, rfl, sweepsFairly_walk hcheck _,
    adjustsByRatios_walk hcheck hrested, sum_rescalings_walk hcheck hrested rfl⟩

def square : Problem Binary64 where
  lower := [-1, -1]
  upper := [1, 1]
  objective := fun decision => [decision.headD 0]

/-- An annealer with two adjustments in each stage, and three sweeps before each of them. -/
def patientAnnealer : Annealer Binary64 where
  config :=
    { Config.standard with totalIterations := 100, perTemperature := 2, perRangeAdjust := 3 }
  check_eq := config_check_eq_ok_iff.mpr (by decide +kernel)

def squareIsland : Island (Script Binary64) Binary64 where
  population := { problem := square, individuals := [Actions.evaluated square [1, 1] [0, 0]] }
  session := intervalIsland.session

theorem square_run_sweeps_fairly :
    ∃ report next, patientAnnealer.run squareIsland = .ok report next ∧ report.stages = 8 ∧
      ∃ individual,
        let course := patientAnnealer.course square 8
        let walk := departure patientAnnealer 8 individual squareIsland
        let moves := patientAnnealer.moves square 8
        (∀ i < 2, (visits course walk moves).count i = 48) ∧
          ((rescalings course walk moves).map Rescaling.accepted).sum = report.tally.accepted := by
  have hcheck : patientAnnealer.checkProblem squareIsland.population.problem = .ok 8 := rfl
  have hne : squareIsland.population.individuals ≠ [] := List.cons_ne_nil _ _
  obtain ⟨individual, slot, hbest⟩ := exists_best hne
  have hrun := run_eq hcheck hbest
  obtain ⟨individual, slot, -, -, hfair, -, hsum⟩ :=
    run_sweeps_fairly patientAnnealer squareIsland _ _ hrun
  exact ⟨_, _, hrun, rfl, individual, hfair.total, hsum⟩

end Archipelago.Proofs.Fairness
