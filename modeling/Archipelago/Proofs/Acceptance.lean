import Archipelago.Proofs.Containment
import Archipelago.Proofs.Fairness
import Archipelago.Proofs.Temperatures
import Mathlib.Data.List.GetD

namespace Archipelago.Proofs.Acceptance

open Accounting
open Annealing
open Arithmetic
open Containment
open Fairness
open Infinities
open Magnitudes
open OrderedScalars
open Roundings
open Runs
open Selection
open Shares
open SingleVector
open Sweeps
open Temperatures

section Proposals

variable {σ α : Type} [Scalar α]

/-- A new value for one component, and its difference from the old one. -/
structure Proposal (α : Type) where
  position : Nat
  increment : α
  value : α

def Proposal.apply (proposal : Proposal α) (point : List α) : List α :=
  point.set proposal.position proposal.value

/-- The increments of one component, in order. -/
def increments (i : Nat) (proposals : List (Proposal α)) : List α :=
  (proposals.filter fun proposal => proposal.position = i).map Proposal.increment

omit [Scalar α] in
theorem increments_append (i : Nat) (first rest : List (Proposal α)) :
    increments i (first ++ rest) = increments i first ++ increments i rest := by
  rw [increments, List.filter_append, List.map_append]
  rfl

/-- The component after some increments, in order. -/
def raised (i : Nat) (proposals : List (Proposal α)) (x : α) : α :=
  (increments i proposals).foldl (· + ·) x

variable [Source σ α]

/-- What a walk proposes next. -/
def proposed (course : Course α) (walk : Walk σ α) : Proposal α :=
  let position := (walk.position + 1) % course.problem.continuousDimension
  let lower := course.problem.lower.getD position 0
  let upper := course.problem.upper.getD position 0
  let u := (Session.uniform walk.session).1
  let increment := (2.0 * u - 1) * walk.steps.getD position 0 * (upper - lower)
  { position, increment, value := walk.point.getD position 0 + increment }

/-- The next proposal is evaluated. -/
def Inside (course : Course α) (walk : Walk σ α) : Prop :=
  ¬Stroll.Outside course (proposed course walk).position (proposed course walk).value

instance (course : Course α) (walk : Walk σ α) : Decidable (Inside course walk) :=
  inferInstanceAs (Decidable (¬_))

/-- The point at which the next proposal is evaluated. -/
def destination (course : Course α) (walk : Walk σ α) : List α :=
  (proposed course walk).apply walk.point

def evaluable (course : Course α) (walk : Walk σ α) : Move → List (Proposal α)
  | .propose => if Inside course walk then [proposed course walk] else []
  | _ => []

def called (course : Course α) (walk : Walk σ α) : Move → List (Call α)
  | .propose => if Inside course walk then [.objective (destination course walk)] else []
  | _ => []

variable [Elementary α]

/-- The proposals of a walk that stay within the bounds. -/
def proposals (course : Course α) (walk : Walk σ α) (moves : List Move) : List (Proposal α) :=
  record course (evaluable course) walk moves

def calls (course : Course α) (walk : Walk σ α) (moves : List Move) : List (Call α) :=
  record course (called course) walk moves

theorem calls_move (course : Course α) (s : Stroll σ α) (move : Move) :
    (s.move course move).session.calls =
      (called course s.toWalk move).reverse ++ s.session.calls := by
  cases move with
  | aim | adjust | cool => rfl
  | propose =>
      have hcalls := propose_calls course s
      change (s.propose course).session.calls = _
      rw [called]
      split_ifs with hinside
      · exact hcalls.trans (if_neg hinside)
      · exact hcalls.trans (if_pos (Decidable.not_not.mp hinside))

theorem calls_foldl (course : Course α) (s : Stroll σ α) (moves : List Move) :
    (moves.foldl (Stroll.move course) s).session.calls =
      (calls course s.toWalk moves).reverse ++ s.session.calls := by
  induction moves generalizing s with
  | nil => rfl
  | cons move moves ih =>
      rw [List.foldl_cons, ih, calls_move, calls, calls, record, move_toWalk, List.reverse_append,
        List.append_assoc]

end Proposals

section Probability

variable {x y : Binary64}

theorem magnitude_nonneg (hx : x.isNaN = false) : 0 ≤ Scalar.magnitude x := by
  rw [Scalar.magnitude]
  split
  case isTrue hneg =>
    obtain ⟨hunits, hdefined⟩ := units_neg x
    have hlt := (lt_iff_units_lt hx units_zero.1).mp hneg
    rw [units_zero.2] at hlt
    rw [zero_le_iff_units, hdefined, hunits]
    exact ⟨hx, by omega⟩
  case isFalse hnot => exact le_of_not_lt rfl hx hnot

theorem change_nonneg {temperature : Binary64} (hx : IsFinite x) (hy : IsFinite y)
    (hpos : 0 < temperature) (hfinite : IsFinite temperature) :
    0 ≤ Scalar.magnitude (x - y) / temperature := by
  have hnonneg := magnitude_nonneg (units_sub hx hy).1
  by_cases hchange : IsFinite (Scalar.magnitude (x - y))
  · exact div_nonneg hnonneg hchange hpos
  · rw [eq_infinity hnonneg hchange, infinity_div_eq hpos hfinite]
    exact zero_le_infinity

theorem lt_acceptance [Elementary Binary64] (hexp : ∀ z : Binary64, 0 ≤ z → 1 ≤ Elementary.exp z)
    {temperature u : Binary64} (hx : IsFinite x) (hy : IsFinite y) (hpos : 0 < temperature)
    (hfinite : IsFinite temperature) (hu : u < 1) : u < acceptance x y temperature :=
  Binary64.lt_of_lt_of_le hu (hexp _ (change_nonneg hx hy hpos hfinite))

end Probability

section Walks

variable {σ : Type} [Source σ Binary64]

/-- The latest value of the objective is finite, and all numbers to come are deviates. -/
structure Ready (s : Stroll σ Binary64) : Prop where
  fitness : IsFinite (s.fitness.headD 0)
  source : YieldsDeviates s.session.source

/-- Between two states of a walk some proposals have been evaluated, and all of them accepted. -/
structure Accepts (proposals : List (Proposal Binary64)) (s next : Stroll σ Binary64) : Prop where
  ready : Ready next
  accepted_eq : next.tally.accepted = s.tally.accepted + proposals.length
  evaluations_eq : next.tally.evaluations = s.tally.evaluations + proposals.length
  point_eq : ∀ i, next.point[i]? = s.point[i]?.map (raised i proposals)

theorem accepts_nil {s next : Stroll σ Binary64} (hready : Ready next)
    (htally : next.tally.accepted = s.tally.accepted ∧
      next.tally.evaluations = s.tally.evaluations)
    (hpoint : next.point = s.point) : Accepts [] s next where
  ready := hready
  accepted_eq := htally.1
  evaluations_eq := htally.2
  point_eq i := by
    rw [hpoint]
    exact (congrFun Option.map_id _).symm

theorem Accepts.trans {first rest : List (Proposal Binary64)} {s middle next : Stroll σ Binary64}
    (h : Accepts first s middle) (h' : Accepts rest middle next) :
    Accepts (first ++ rest) s next where
  ready := h'.ready
  accepted_eq := by rw [h'.accepted_eq, h.accepted_eq, List.length_append, Nat.add_assoc]
  evaluations_eq := by rw [h'.evaluations_eq, h.evaluations_eq, List.length_append, Nat.add_assoc]
  point_eq i := by
    rw [h'.point_eq, h.point_eq, Option.map_map]
    congr 1
    funext x
    rw [Function.comp_apply, raised, raised, raised, increments_append, List.foldl_append]

theorem accepts_one {s next : Stroll σ Binary64} {proposal : Proposal Binary64}
    (hready : Ready next) (htally : next.tally.accepted = s.tally.accepted + 1 ∧
      next.tally.evaluations = s.tally.evaluations + 1)
    (hvalue : proposal.value = s.point.getD proposal.position 0 + proposal.increment)
    (hpoint : next.point = proposal.apply s.point) : Accepts [proposal] s next where
  ready := hready
  accepted_eq := htally.1
  evaluations_eq := htally.2
  point_eq i := by
    rw [hpoint, Proposal.apply]
    by_cases hi : proposal.position = i
    · have hincrements : increments i [proposal] = [proposal.increment] := by
        simp [increments, hi]
      rw [hi] at hvalue ⊢
      rcases Nat.lt_or_ge i s.point.length with hlt | hge
      · rw [List.getElem?_set_self hlt, List.getElem?_eq_getElem hlt, hvalue,
          List.getD_eq_getElem _ _ hlt, Option.map_some, raised, hincrements]
        rfl
      · rw [List.set_eq_of_length_le hge, List.getElem?_eq_none hge]
        rfl
    · have hincrements : increments i [proposal] = [] := by
        simp [increments, hi]
      have hraised : raised i [proposal] = id := by
        funext x
        rw [raised, hincrements]
        rfl
      rw [List.getElem?_set_ne hi, hraised, Option.map_id]
      rfl

theorem isFinite_headD {xs : List Binary64} (h : ∀ x ∈ xs, IsFinite x) : IsFinite (xs.headD 0) := by
  cases xs with
  | nil => exact isFinite_zero
  | cons x xs => exact h x List.mem_cons_self

/-- All values that the objective takes in some calls are finite. -/
def MeetsFinite (problem : Problem Binary64) (calls : List (Call Binary64)) : Prop :=
  ∀ point, .objective point ∈ calls → ∀ x ∈ problem.objective point, IsFinite x

theorem MeetsFinite.mono {problem : Problem Binary64} {first rest : List (Call Binary64)}
    (h : MeetsFinite problem rest) (hle : ∀ call ∈ first, call ∈ rest) :
    MeetsFinite problem first :=
  fun point hmem => h point (hle _ hmem)

variable {course : Course Binary64} {s : Stroll σ Binary64}

theorem accepts_destination {next : Stroll σ Binary64}
    (hvalues : ∀ x ∈ course.problem.objective (destination course s.toWalk), IsFinite x)
    (hfitness : next.fitness = course.problem.objective (destination course s.toWalk))
    (hsource : YieldsDeviates next.session.source)
    (htally : next.tally.accepted = s.tally.accepted + 1 ∧
      next.tally.evaluations = s.tally.evaluations + 1)
    (hpoint : next.point = destination course s.toWalk) :
    Accepts [proposed course s.toWalk] s next := by
  rw [← hfitness] at hvalues
  exact accepts_one ⟨isFinite_headD hvalues, hsource⟩ htally rfl hpoint

variable [Elementary Binary64]

/-- While the temperature is positive and finite, a proposal within the bounds is accepted. -/
theorem propose_accepts (hexp : ∀ z : Binary64, 0 ≤ z → 1 ≤ Elementary.exp z)
    (hpos : 0 < s.temperature) (hfinite : IsFinite s.temperature) (hready : Ready s)
    (hmeets : MeetsFinite course.problem (called course s.toWalk .propose)) :
    Accepts (evaluable course s.toWalk .propose) s (s.propose course) ∧
      (s.propose course).point =
        if Inside course s.toWalk then destination course s.toWalk else s.point := by
  rw [called] at hmeets
  rw [evaluable]
  by_cases hinside : Inside course s.toWalk
  · rw [if_pos hinside] at hmeets
    rw [if_pos hinside, if_pos hinside]
    have hvalues := hmeets _ List.mem_cons_self
    obtain ⟨houtside, -⟩ | ⟨-, -, heq⟩ | ⟨-, -, ⟨-, heq⟩ | ⟨hrejected, -⟩⟩ := propose_cases course s
    · exact absurd houtside hinside
    · rw [heq]
      exact ⟨accepts_destination hvalues rfl hready.source.next ⟨rfl, rfl⟩ rfl, rfl⟩
    · rw [heq]
      exact ⟨accepts_destination hvalues rfl hready.source.next.next ⟨rfl, rfl⟩ rfl, rfl⟩
    · exact absurd (lt_acceptance hexp hready.fitness (isFinite_headD hvalues) hpos hfinite
        hready.source.next.first.2) hrejected
  · rw [if_neg hinside, if_neg hinside]
    obtain ⟨-, heq⟩ | ⟨hnot, -⟩ | ⟨hnot, -⟩ := propose_cases course s
    · rw [heq]
      exact ⟨accepts_nil ⟨hready.fitness, hready.source.next⟩ ⟨rfl, rfl⟩ rfl, rfl⟩
    · exact absurd hnot hinside
    · exact absurd hnot hinside

/-- The temperature is positive and finite for every proposal. -/
def Warm (course : Course Binary64) (s : Stroll σ Binary64) (moves : List Move) : Prop :=
  ∀ done left, moves = done ++ .propose :: left →
    0 < (done.foldl (Stroll.move course) s).temperature ∧
      IsFinite (done.foldl (Stroll.move course) s).temperature

theorem Warm.tail {move : Move} {moves : List Move} (h : Warm course s (move :: moves)) :
    Warm course (s.move course move) moves :=
  fun done left heq => h (move :: done) left (congrArg (move :: ·) heq)

theorem Warm.left {first rest : List Move} (h : Warm course s (first ++ rest)) :
    Warm course s first := by
  rintro done left rfl
  exact h done (left ++ rest) (List.append_assoc ..)

variable (hexp : ∀ z : Binary64, 0 ≤ z → 1 ≤ Elementary.exp z) {moves : List Move}

include hexp

theorem accepts_move {move : Move}
    (hwarm : move = .propose → 0 < s.temperature ∧ IsFinite s.temperature) (hready : Ready s)
    (hmeets : MeetsFinite course.problem (called course s.toWalk move)) :
    Accepts (evaluable course s.toWalk move) s (s.move course move) := by
  cases move with
  | propose =>
      obtain ⟨hpos, hfinite⟩ := hwarm rfl
      exact (propose_accepts hexp hpos hfinite hready hmeets).1
  | aim => exact accepts_nil ⟨hready.fitness, hready.source.next⟩ ⟨rfl, rfl⟩ rfl
  | adjust | cool => exact accepts_nil ⟨hready.fitness, hready.source⟩ ⟨rfl, rfl⟩ rfl

theorem accepts_foldl (hwarm : Warm course s moves) (hready : Ready s)
    (hmeets : MeetsFinite course.problem (calls course s.toWalk moves)) :
    Accepts (proposals course s.toWalk moves) s (moves.foldl (Stroll.move course) s) := by
  induction moves generalizing s with
  | nil => exact accepts_nil hready ⟨rfl, rfl⟩ rfl
  | cons move moves ih =>
      rw [calls, record, move_toWalk] at hmeets
      rw [proposals, record, move_toWalk]
      have hfirst : Accepts (evaluable course s.toWalk move) s (s.move course move) := by
        refine accepts_move hexp ?_ hready (hmeets.mono fun _ => List.mem_append_left _)
        rintro rfl
        exact hwarm [] moves rfl
      exact hfirst.trans (ih hwarm.tail hfirst.ready (hmeets.mono fun _ => List.mem_append_right _))

theorem follow_propose_point {done left : List Move}
    (hwarm : Warm course s (done ++ .propose :: left)) (hready : Ready s)
    (hmeets : MeetsFinite course.problem (calls course s.toWalk (done ++ .propose :: left))) :
    let before := s.toWalk.follow course done
    (s.toWalk.follow course (done ++ [.propose])).point =
      if Inside course before then destination course before else before.point := by
  intro before
  have hbefore : before = (done.foldl (Stroll.move course) s).toWalk := follow_toWalk course done s
  rw [calls, record_append, record] at hmeets
  have hdone := accepts_foldl hexp hwarm.left hready (hmeets.mono fun _ => List.mem_append_left _)
  obtain ⟨hpos, hfinite⟩ := hwarm done left rfl
  have hcalled : MeetsFinite course.problem (called course before .propose) :=
    hmeets.mono fun _ hmem => List.mem_append_right _ (List.mem_append_left _ hmem)
  rw [hbefore] at hcalled ⊢
  rw [follow_toWalk, List.foldl_concat]
  exact (propose_accepts hexp hpos hfinite hdone.ready hcalled).2

end Walks

section Runs

variable {σ : Type} [Elementary Binary64] [Source σ Binary64]

/-- A walk accepts every proposal that it evaluates, and nothing else changes its point. -/
structure AcceptsAll (course : Course Binary64) (walk : Walk σ Binary64) (moves : List Move) :
    Prop where
  accepted_eq : (walk.follow course moves).tally.accepted =
    (walk.follow course moves).tally.evaluations
  evaluations_eq : (walk.follow course moves).tally.evaluations =
    (proposals course walk moves).length
  kept : ∀ done left, moves = done ++ .propose :: left →
    let before := walk.follow course done
    (walk.follow course (done ++ [.propose])).point =
      if Inside course before then destination course before else before.point
  point_eq : ∀ i, (walk.follow course moves).point[i]? =
    walk.point[i]?.map (raised i (proposals course walk moves))

theorem acceptsAll (hexp : ∀ z : Binary64, 0 ≤ z → 1 ≤ Elementary.exp z)
    {course : Course Binary64} {s : Stroll σ Binary64} {moves : List Move}
    (hwarm : Warm course s moves) (hready : Ready s)
    (hmeets : MeetsFinite course.problem (calls course s.toWalk moves))
    (htally : s.tally.accepted = s.tally.evaluations) (hnone : s.tally.evaluations = 0) :
    AcceptsAll course s.toWalk moves := by
  have haccepts := accepts_foldl hexp hwarm hready hmeets
  constructor
  · rw [follow_toWalk]
    exact haccepts.accepted_eq.trans (htally ▸ haccepts.evaluations_eq.symm)
  · rw [follow_toWalk]
    exact haccepts.evaluations_eq.trans (by rw [hnone, Nat.zero_add])
  · rintro done left rfl
    exact follow_propose_point hexp hwarm hready hmeets
  · intro i
    rw [follow_toWalk]
    exact haccepts.point_eq i

theorem warm_startStroll {annealer : Annealer Binary64} {problem : Problem Binary64} {stages : Nat}
    (htemperature : ∀ finished < stages,
      0 < temperature annealer.config stages finished ∧
        IsFinite (temperature annealer.config stages finished))
    (individual : Individual Binary64) (session : Session σ Binary64) :
    Warm (annealer.course problem stages) (startStroll annealer problem individual session)
      (annealer.moves problem stages) := by
  intro done left heq
  have hwalk : (done.foldl (Stroll.move (annealer.course problem stages))
      (startStroll annealer problem individual session)).temperature =
        temperature annealer.config stages (finishedStages done).length := by
    rw [← walk_temperature annealer problem stages individual session done, start_eq_toWalk,
      follow_toWalk]
    rfl
  rw [hwalk]
  exact htemperature _ (finishedStages_lt heq)

omit [Elementary Binary64] [Source σ Binary64] in
theorem exists_calls_concluded (annealer : Annealer Binary64) (individual : Individual Binary64)
    (slot : Nat) (last : Walk σ Binary64) (population : Population Binary64) :
    ∃ made, (concluded annealer individual slot last population).session.calls =
      made ++ last.session.calls := by
  by_cases himproves : Improves population.problem individual last
  · rw [concluded, if_pos himproves, if_pos himproves]
    exact ⟨[.constraints last.point, .objective last.point], rfl⟩
  · rw [concluded, if_neg himproves, if_neg himproves]
    exact ⟨[], rfl⟩

/-- As long as no value of the objective overflows and no temperature vanishes, a run accepts every
proposal that it evaluates, so that each component ends where these proposals take it one after
another.  This holds for any preference. -/
theorem run_accepts_every_evaluation
    (hexp : ∀ z : Binary64, 0 ≤ z → 1 ≤ Elementary.exp z) {annealer : Annealer Binary64}
    {island : Island σ Binary64} {stages : Nat}
    (hcheck : annealer.checkProblem island.population.problem = .ok stages)
    (hne : island.population.individuals ≠ []) (hsource : YieldsDeviates island.session.source)
    (htemperature : ∀ finished < stages,
      0 < temperature annealer.config stages finished ∧
        IsFinite (temperature annealer.config stages finished)) :
    ∃ individual slot report next made,
      island.population.best = .ok (individual, slot) ∧
      annealer.run island = .ok report next ∧
      next.session.calls = made ++ island.session.calls ∧
      let course := annealer.course island.population.problem stages
      let walk := departure annealer stages individual island
      let moves := annealer.moves island.population.problem stages
      report.tally = (walk.follow course moves).tally ∧
        next = concluded annealer individual slot (walk.follow course moves) island.population ∧
        walk.point = individual.decision ∧
        ((∀ x ∈ individual.fitness, IsFinite x) →
          MeetsFinite island.population.problem made →
            report.tally.accepted = report.tally.evaluations ∧ AcceptsAll course walk moves) := by
  obtain ⟨individual, slot, hbest⟩ := exists_best hne
  let base : Session σ Binary64 := (Session.report (.annealingStarted annealer.name stages
    (individual.fitness.headD 0) island.population.problem.name) island.session).2
  let s := startStroll annealer island.population.problem individual base
  let course := annealer.course island.population.problem stages
  let moves := annealer.moves island.population.problem stages
  have hlast : lastWalk annealer stages individual island =
      (moves.foldl (Stroll.move course) s).toWalk := follow_toWalk course moves s
  have hcalls := calls_foldl course s moves
  obtain ⟨extra, hextra⟩ := exists_calls_concluded annealer individual slot
    (lastWalk annealer stages individual island) island.population
  refine ⟨individual, slot, _, _, extra ++ (calls course s.toWalk moves).reverse, hbest,
    run_eq hcheck hbest, ?_, rfl, rfl, rfl, ?_⟩
  · rw [hextra, hlast, List.append_assoc]
    exact congrArg (extra ++ ·) hcalls
  · intro hfitness hmeets
    have hmade : MeetsFinite course.problem (calls course s.toWalk moves) :=
      hmeets.mono fun _ hmem => List.mem_append_right _ (List.mem_reverse.mpr hmem)
    have hready : Ready s := ⟨isFinite_headD hfitness, hsource⟩
    have haccepts := acceptsAll hexp (warm_startStroll htemperature individual base) hready hmade
      rfl rfl
    exact ⟨haccepts.accepted_eq, haccepts⟩

end Runs

/-- Two large values of the objective, whose difference overflows. -/
def cliff : Problem Binary64 where
  lower := [-1]
  upper := [1]
  objective := fun decision =>
    [if decision.headD 0 < 0 then ⟨0x7fee42d130773b76⟩ else ⟨0xffee42d130773b76⟩]

/-- An annealer whose budget is a single proposal. -/
def briefAnnealer : Annealer Binary64 where
  config := { Config.standard with totalIterations := 1 }
  check_eq := config_check_eq_ok_iff.mpr (by decide +kernel)

/-- All numbers are one quarter, so that the proposal goes to the left end. -/
def cliffIsland : Island (Script Binary64) Binary64 where
  population := { problem := cliff, individuals := [Actions.evaluated cliff [0] [0]] }
  session := { source := .constant ⟨0x3fd0000000000000⟩ }

theorem isFinite_cliff (point : List Binary64) : ∀ x ∈ cliff.objective point, IsFinite x := by
  intro x hx
  rw [List.mem_singleton.mp hx]
  split_ifs
  · decide +kernel
  · decide +kernel

theorem cliff_run_accepts_every_evaluation :
    letI := coarse
    (∀ z : Binary64, 0 ≤ z → 1 ≤ Elementary.exp z) ∧
      ∃ report next, briefAnnealer.run cliffIsland = .ok report next ∧
        report.tally.evaluations = 1 ∧ report.tally.accepted = 1 := by
  let _ := coarse
  have hexp : ∀ z : Binary64, 0 ≤ z → 1 ≤ coarse.exp z := by
    intro z _
    change 1 ≤ if 0 < z then Binary64.infinity else 1
    split_ifs
    · decide +kernel
    · decide +kernel
  have hcheck : briefAnnealer.checkProblem cliffIsland.population.problem = .ok 1 := rfl
  have hne : cliffIsland.population.individuals ≠ [] := List.cons_ne_nil _ _
  have hsource : YieldsDeviates cliffIsland.session.source := by
    have hdefined : ∀ x ∈ [(⟨0x3fd0000000000000⟩ : Binary64)], x.isNaN = false := by decide +kernel
    have hsession : cliffIsland.session.source = Script.ofList [⟨0x3fd0000000000000⟩] := rfl
    rw [hsession]
    exact yieldsDeviates_ofList hdefined
  have htemperature : ∀ finished < 1, 0 < temperature briefAnnealer.config 1 finished ∧
      IsFinite (temperature briefAnnealer.config 1 finished) := by
    intro finished hfinished
    obtain rfl : finished = 0 := Nat.lt_one_iff.mp hfinished
    exact ⟨by decide +kernel, by decide +kernel⟩
  obtain ⟨individual, slot, report, next, made, hbest, hrun, -, htally, -, -, haccepts⟩ :=
    run_accepts_every_evaluation hexp hcheck hne hsource htemperature
  have hindividual : individual = Actions.evaluated cliff [0] [0] := by
    have hmember := best_getElem? hbest
    exact List.mem_singleton.mp (List.mem_of_getElem? hmember)
  have hfitness : ∀ x ∈ individual.fitness, IsFinite x := by
    rw [hindividual]
    exact isFinite_cliff [0]
  obtain ⟨haccepted, hall⟩ := haccepts hfitness fun point _ => isFinite_cliff point
  have hone : report.tally.evaluations = 1 := by
    rw [htally, hall.evaluations_eq, hindividual]
    decide +kernel
  exact ⟨hexp, report, next, hrun, hone, haccepted.trans hone⟩

end Archipelago.Proofs.Acceptance
