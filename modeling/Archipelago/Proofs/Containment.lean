import Archipelago.Problem.Box
import Archipelago.Proofs.Accounting
import Archipelago.Proofs.Steps

/-!
A run evaluates and stores nothing outside the bounds.  Only where the width of the bounds is not
finite, a component may become undefined.
-/

namespace Archipelago.Proofs.Containment

open Accounting
open Actions
open Annealing
open OrderedScalars
open Roundings
open Runs
open Selection
open SingleVector
open Steps

variable {σ : Type}

def width (box : BoxProblem Binary64) (i : Nat) : Binary64 :=
  box.upper.getD i 0 - box.lower.getD i 0

def Between (box : BoxProblem Binary64) (i : Nat) (x : Binary64) : Prop :=
  box.lower.getD i 0 ≤ x ∧ x ≤ box.upper.getD i 0

theorem bounds_le {box : BoxProblem Binary64} {i : Nat} (hi : i < box.lower.length) :
    box.lower.getD i 0 ≤ box.upper.getD i 0 := by
  have hi' : i < box.upper.length := box.length_eq ▸ hi
  have hzip : i < (box.lower.zip box.upper).length := by
    rw [List.length_zip]
    exact Nat.lt_min.mpr ⟨hi, hi'⟩
  have hle := box.le_of_mem _ (List.getElem_mem hzip)
  rwa [List.getElem_zip, ← List.getD_eq_getElem _ 0 hi, ← List.getD_eq_getElem _ 0 hi'] at hle

/-- The decision is in the box but for undefined components, whose bounds are too far apart. -/
structure Enclosed (box : BoxProblem Binary64) (decision : List Binary64) : Prop where
  length_eq : decision.length = box.lower.length
  between : ∀ i (h : i < decision.length), Between box i decision[i] ∨
    i < box.toProblem.continuousDimension ∧ ¬IsFinite (width box i) ∧ decision[i].isNaN = true
  whole : ∀ i (h : i < decision.length), box.toProblem.continuousDimension ≤ i →
    Scalar.IsWhole decision[i]

theorem checkComponents_eq_ok_iff {continuous : Nat} {lower upper decision : List Binary64}
    (hlower : lower.length = decision.length) (hupper : upper.length = decision.length)
    (index : Nat) :
    checkComponents continuous index lower upper decision = .ok () ↔
      ∀ i (h : i < decision.length),
        (lower.getD i 0 ≤ decision[i] ∧ decision[i] ≤ upper.getD i 0) ∧
          (continuous ≤ index + i → Scalar.IsWhole decision[i]) := by
  induction decision generalizing index lower upper with
  | nil =>
      obtain rfl := List.eq_nil_of_length_eq_zero hlower
      exact iff_of_true rfl nofun
  | cons x decision ih =>
      obtain ⟨l, lower, rfl⟩ := List.exists_cons_of_length_eq_add_one hlower
      obtain ⟨u, upper, rfl⟩ := List.exists_cons_of_length_eq_add_one hupper
      rw [checkComponents]
      split_ifs with hbetween hwhole
      · exact iff_of_false nofun fun h => hwhole.2 ((h 0 (Nat.succ_pos _)).2 hwhole.1)
      · rw [ih (Nat.succ.inj hlower) (Nat.succ.inj hupper)]
        have hsucc : ∀ i, index + 1 + i = index + (i + 1) := fun i => by omega
        constructor
        · intro h i hi
          cases i with
          | zero =>
              exact ⟨hbetween, fun hle => not_not.mp fun hx => hwhole ⟨hle, hx⟩⟩
          | succ i =>
              rw [← hsucc]
              exact h i (Nat.lt_of_succ_lt_succ hi)
        · intro h i hi
          rw [hsucc]
          exact h (i + 1) (Nat.succ_lt_succ hi)
      · exact iff_of_false nofun fun h => hbetween (h 0 (Nat.succ_pos _)).1

theorem verify_eq_ok_iff {box : BoxProblem Binary64} {decision : List Binary64} :
    box.toProblem.verify decision = .ok () ↔
      decision.length = box.lower.length ∧
        ∀ i (h : i < decision.length), Between box i decision[i] ∧
          (box.toProblem.continuousDimension ≤ i → Scalar.IsWhole decision[i]) := by
  change (checkLength box.lower.length decision.length >>= fun _ =>
    checkComponents box.toProblem.continuousDimension 0 box.lower box.upper decision) = _ ↔ _
  rw [except_bind_eq_ok_iff, checkLength_eq_ok_iff, eq_comm]
  apply and_congr_right
  intro hlength
  rw [checkComponents_eq_ok_iff hlength.symm (box.length_eq.symm.trans hlength.symm)]
  simp only [Nat.zero_add]
  rfl

theorem Enclosed.of_verify {box : BoxProblem Binary64} {decision : List Binary64}
    (h : box.toProblem.verify decision = .ok ()) : Enclosed box decision := by
  obtain ⟨hlength, hcomponents⟩ := verify_eq_ok_iff.mp h
  exact ⟨hlength, fun i hi => .inl (hcomponents i hi).1, fun i hi => (hcomponents i hi).2⟩

theorem Enclosed.verify {box : BoxProblem Binary64} {decision : List Binary64}
    (h : Enclosed box decision)
    (hfinite : ∀ i < box.toProblem.continuousDimension, IsFinite (width box i)) :
    box.toProblem.verify decision = .ok () := by
  refine verify_eq_ok_iff.mpr ⟨h.length_eq, ?_⟩
  intro i hi
  refine ⟨?_, h.whole i hi⟩
  rcases h.between i hi with hbetween | ⟨hlt, hwidth, -⟩
  · exact hbetween
  · exact absurd (hfinite i hlt) hwidth

theorem Enclosed.set {box : BoxProblem Binary64} {decision : List Binary64} {i : Nat}
    {x : Binary64} (h : Enclosed box decision) (hi : i < box.toProblem.continuousDimension)
    (hx : Between box i x ∨ ¬IsFinite (width box i) ∧ x.isNaN = true) :
    Enclosed box (decision.set i x) := by
  constructor
  · rw [List.length_set, h.length_eq]
  · intro j hj
    rw [List.getElem_set]
    rw [List.length_set] at hj
    split_ifs with heq
    · subst heq
      exact hx.imp id fun h => ⟨hi, h⟩
    · exact h.between j hj
  · intro j hj hle
    rw [List.getElem_set_ne (by omega)]
    rw [List.length_set] at hj
    exact h.whole j hj hle

/-- The numbers of a source from a state on lie in `[0, 1)`. -/
def YieldsDeviates [Source σ Binary64] (source : σ) : Prop :=
  ∀ n, 0 ≤ (Source.next (drained n source)).1 ∧ (Source.next (drained n source)).1 < 1

theorem YieldsDeviates.first [Source σ Binary64] {source : σ} (h : YieldsDeviates source) :
    0 ≤ (Source.next source).1 ∧ (Source.next source).1 < 1 :=
  h 0

theorem YieldsDeviates.next [Source σ Binary64] {source : σ} (h : YieldsDeviates source) :
    YieldsDeviates (Source.next source).2 :=
  fun n => h (n + 1)

theorem values_drained (n : Nat) (script : Script Binary64) :
    (drained n script).values = script.values := by
  induction n generalizing script with
  | zero => rfl
  | succ n ih => exact ih script.next.2

theorem clamp_deviate {x : Binary64} (h : x.isNaN = false) :
    0 ≤ Scalar.clamp 0 Script.ceiling x ∧ Scalar.clamp 0 Script.ceiling x < 1 := by
  have hceiling : (0 : Binary64) ≤ Script.ceiling ∧ (Script.ceiling : Binary64) < 1 := by
    decide +kernel
  rw [Scalar.clamp]
  split_ifs with hbelow habove
  · decide +kernel
  · exact hceiling
  · exact ⟨le_of_not_lt rfl h hbelow,
      Binary64.lt_of_le_of_lt (le_of_not_lt h hceiling.1.2.1 habove) hceiling.2⟩

theorem yieldsDeviates_ofList {values : List Binary64} (h : ∀ x ∈ values, x.isNaN = false) :
    YieldsDeviates (Script.ofList values) := by
  have hzero : (0 : Binary64) ≤ 0 ∧ (0 : Binary64) < 1 := by decide +kernel
  have hvalues : ∀ x ∈ (Script.ofList values).values, 0 ≤ x ∧ x < 1 := by
    intro x hx
    cases values with
    | nil =>
        rw [List.mem_singleton.mp hx]
        exact hzero
    | cons value values =>
        obtain ⟨y, hy, rfl⟩ := List.mem_map.mp hx
        exact clamp_deviate (h y hy)
  intro n
  rw [← values_drained n] at hvalues
  generalize drained n (Script.ofList values) = script at hvalues ⊢
  change 0 ≤ script.values.getD (script.served % script.values.length) 0 ∧
    script.values.getD (script.served % script.values.length) 0 < 1
  rcases Nat.lt_or_ge (script.served % script.values.length) script.values.length with hlt | hge
  · rw [List.getD_eq_getElem _ _ hlt]
    exact hvalues _ (List.getElem_mem hlt)
  · rw [List.getD_eq_default _ _ hge]
    exact hzero

/-- The problem is posed by the box, also if it has a key of its own or is metered. -/
def Poses (box : BoxProblem Binary64) (problem : Problem Binary64) : Prop :=
  ∃ key counted, problem = { box.toProblem with key, counted }

theorem Poses.verify_eq {box : BoxProblem Binary64} {problem : Problem Binary64}
    (h : Poses box problem) : problem.verify = box.toProblem.verify := by
  obtain ⟨key, counted, rfl⟩ := h
  rfl

theorem Poses.fields {box : BoxProblem Binary64} {problem : Problem Binary64}
    (h : Poses box problem) :
    problem.lower = box.lower ∧ problem.upper = box.upper ∧
      problem.continuousDimension = box.toProblem.continuousDimension := by
  obtain ⟨key, counted, rfl⟩ := h
  exact ⟨rfl, rfl, rfl⟩

/-- All calls of the objective since `base` are made in the box. -/
def CallsWithin (box : BoxProblem Binary64) (base session : Session σ Binary64) : Prop :=
  ∃ made, session.calls = made ++ base.calls ∧ ∀ x, .objective x ∈ made → Enclosed box x

structure Stays [Source σ Binary64] (box : BoxProblem Binary64) (base : Session σ Binary64)
    (s : Stroll σ Binary64) : Prop where
  point : Enclosed box s.point
  steps : ∀ step ∈ s.steps, IsFraction step
  source : YieldsDeviates s.session.source
  calls : CallsWithin box base s.session

theorem CallsWithin.objective {box : BoxProblem Binary64} {base session next : Session σ Binary64}
    (h : CallsWithin box base session) {x : List Binary64} (hx : Enclosed box x)
    (hcalls : next.calls = .objective x :: session.calls) : CallsWithin box base next := by
  obtain ⟨made, heq, hmade⟩ := h
  refine ⟨.objective x :: made, ?_, ?_⟩
  · rw [hcalls, heq]
    rfl
  · intro y hy
    rcases List.mem_cons.mp hy with hy | hy
    · cases hy
      exact hx
    · exact hmade y hy

section Moves

variable [Source σ Binary64] {box : BoxProblem Binary64} {course : Course Binary64}
  {base : Session σ Binary64} {s : Stroll σ Binary64}

/-- A proposal that passes for one within the bounds is, or it is undefined and the bounds are too
far apart. -/
theorem between_proposed (hposes : Poses box course.problem)
    (hc : 0 < course.problem.continuousDimension) (h : Stays box base s)
    (hinside : ¬Stroll.Outside course ((s.position + 1) % course.problem.continuousDimension)
      (s.proposed course)) :
    Between box ((s.position + 1) % course.problem.continuousDimension) (s.proposed course) ∨
      ¬IsFinite (width box ((s.position + 1) % course.problem.continuousDimension)) ∧
        (s.proposed course).isNaN = true := by
  obtain ⟨hlower, hupper, hcontinuous⟩ := hposes.fields
  have hlt := Nat.mod_lt (s.position + 1) hc
  have hproposed : s.proposed course = proposal
      (s.point.getD ((s.position + 1) % course.problem.continuousDimension) 0)
      (s.steps.getD ((s.position + 1) % course.problem.continuousDimension) 0)
      (course.problem.lower.getD ((s.position + 1) % course.problem.continuousDimension) 0)
      (course.problem.upper.getD ((s.position + 1) % course.problem.continuousDimension) 0)
      (Source.next s.session.source).1 := rfl
  rw [Stroll.Outside, hlower, hupper] at hinside
  rw [hlower, hupper] at hproposed
  generalize (s.position + 1) % course.problem.continuousDimension = i at hinside hlt hproposed ⊢
  rw [hcontinuous] at hlt
  have hi : i < box.lower.length := hlt.trans_le (Nat.sub_le _ _)
  have hbounds := bounds_le hi
  cases hdefined : (s.proposed course).isNaN with
  | false =>
      rw [not_or] at hinside
      exact .inl ⟨le_of_not_lt hbounds.1 hdefined hinside.2,
        le_of_not_lt hdefined hbounds.2.1 hinside.1⟩
  | true =>
      refine .inr ⟨?_, rfl⟩
      intro hfinite
      have hpoint : i < s.point.length := h.point.length_eq ▸ hi
      have hvalue : IsFinite (s.point.getD i 0) := by
        rw [List.getD_eq_getElem _ _ hpoint]
        obtain ⟨hupper, hlower⟩ := isFinite_of_sub hbounds.2.1 hbounds.1 hfinite
        rcases h.point.between i hpoint with hbetween | ⟨-, hwidth, -⟩
        · exact isFinite_of_mem hlower hupper hbetween
        · exact absurd hfinite hwidth
      have hstep : IsFraction (s.steps.getD i 0) := isFraction_getD h.steps i
      rw [hproposed, proposal_isNaN hvalue hstep h.source.first hfinite] at hdefined
      contradiction

theorem stays_propose (hposes : Poses box course.problem)
    (hc : 0 < course.problem.continuousDimension) (h : Stays box base s) :
    Stays box base (s.propose course) := by
  have hlt : (s.position + 1) % course.problem.continuousDimension <
      box.toProblem.continuousDimension := hposes.fields.2.2 ▸ Nat.mod_lt _ hc
  have hset := fun hinside => h.point.set hlt (between_proposed hposes hc h hinside)
  obtain ⟨-, heq⟩ | ⟨ho, -, heq⟩ | ⟨ho, -, ⟨-, heq⟩ | ⟨-, heq⟩⟩ := propose_cases course s
  · rw [heq]
    exact ⟨h.point, h.steps, h.source.next, h.calls⟩
  · rw [heq]
    exact ⟨hset ho, h.steps, h.source.next, h.calls.objective (hset ho) rfl⟩
  · rw [heq]
    exact ⟨hset ho, h.steps, h.source.next.next, h.calls.objective (hset ho) rfl⟩
  · rw [heq]
    exact ⟨h.point, h.steps, h.source.next.next, h.calls.objective (hset ho) rfl⟩

theorem stays_adjust (hrange : IsFraction course.config.stepRange) (h : Stays box base s) :
    Stays box base (s.adjust course) := by
  refine ⟨h.point, ?_, h.source, h.calls⟩
  intro step hstep
  obtain ⟨i, hi, rfl⟩ := List.getElem_of_mem hstep
  have hsteps : (s.adjust course).steps = s.steps.zipWith
      (fun step accepted =>
        rescaleStep step accepted course.config.perRangeAdjust course.config.stepRange)
      s.accepted := rfl
  simp only [hsteps, List.getElem_zipWith]
  exact rescaleStep_isFraction (h.steps _ (List.getElem_mem _)).1 hrange _ _

theorem stays_move (hposes : Poses box course.problem)
    (hc : 0 < course.problem.continuousDimension) (hrange : IsFraction course.config.stepRange)
    (h : Stays box base s) (move : Move) : Stays box base (s.move course move) := by
  cases move with
  | aim => exact ⟨h.point, h.steps, h.source.next, h.calls⟩
  | propose => exact stays_propose hposes hc h
  | adjust => exact stays_adjust hrange h
  | cool stage => exact ⟨h.point, h.steps, h.source, h.calls⟩

theorem stays_foldl (hposes : Poses box course.problem)
    (hc : 0 < course.problem.continuousDimension) (hrange : IsFraction course.config.stepRange)
    (moves : List Move) (h : Stays box base s) :
    Stays box base (moves.foldl (Stroll.move course) s) := by
  induction moves generalizing s with
  | nil => exact h
  | cons move moves ih => exact ih (stays_move hposes hc hrange h move)

end Moves

/-- Every decision that the objective is called with between two islands has a property, and so do
all members of the second one. -/
structure Throughout (P : List Binary64 → Prop) (before next : Island σ Binary64) : Prop where
  calls : ∃ made, next.session.calls = made ++ before.session.calls ∧
    ∀ x, .objective x ∈ made → P x
  members : ∀ individual ∈ next.population.individuals, P individual.decision

theorem Throughout.mono {P Q : List Binary64 → Prop} {before next : Island σ Binary64}
    (h : Throughout P before next) (hPQ : ∀ x, P x → Q x) : Throughout Q before next := by
  obtain ⟨made, heq, hmade⟩ := h.calls
  exact ⟨⟨made, heq, fun x hx => hPQ x (hmade x hx)⟩,
    fun individual hmem => hPQ _ (h.members individual hmem)⟩

section Runs

variable [Source σ Binary64] {box : BoxProblem Binary64} {annealer : Annealer Binary64}
  {island : Island σ Binary64}

theorem isFraction_stepRange (annealer : Annealer Binary64) :
    IsFraction annealer.config.stepRange :=
  (config_check_eq_ok_iff.mp annealer.check_eq).2.2

theorem stays_stroll {problem : Problem Binary64} (hposes : Poses box problem)
    (hc : 0 < problem.continuousDimension) (stages : Nat) {individual : Individual Binary64}
    (hindividual : Enclosed box individual.decision) {base : Session σ Binary64}
    (hsource : YieldsDeviates base.source) :
    Stays box base (stroll annealer problem stages individual base) := by
  have hstart : Stays box base (startStroll annealer problem individual base) := by
    refine ⟨hindividual, ?_, hsource, [], rfl, nofun⟩
    intro step hstep
    rw [List.eq_of_mem_replicate hstep]
    exact isFraction_stepRange annealer
  have hcourse : Poses box (annealer.course problem stages).problem := hposes
  rw [stroll, ← foldl_schedule]
  exact stays_foldl hcourse hc (isFraction_stepRange annealer) _ hstart

theorem throughout_concluded
    (hmembers : ∀ individual ∈ island.population.individuals, Enclosed box individual.decision)
    {individual : Individual Binary64} {last : Stroll σ Binary64} {base : Session σ Binary64}
    (hbase : base.calls = island.session.calls) (h : Stays box base last)
    (annealer : Annealer Binary64) (slot : Nat) :
    Throughout (Enclosed box) island
      (concluded annealer individual slot last.toWalk island.population) := by
  obtain ⟨made, hcalls, hmade⟩ := h.calls
  rw [hbase] at hcalls
  by_cases himproves : Improves island.population.problem individual last.toWalk
  · rw [concluded, if_pos himproves, if_pos himproves]
    refine ⟨⟨.constraints last.point :: .objective last.point :: made, ?_, ?_⟩, ?_⟩
    · exact congrArg (fun calls => .constraints last.point :: .objective last.point :: calls) hcalls
    · intro x hx
      rw [List.mem_cons, List.mem_cons] at hx
      rcases hx with hx | hx | hx
      · contradiction
      · cases hx
        exact h.point
      · exact hmade x hx
    · intro member hmember
      rcases List.mem_or_eq_of_mem_set hmember with hmember | rfl
      · exact hmembers member hmember
      · exact h.point
  · rw [concluded, if_neg himproves, if_neg himproves]
    exact ⟨⟨made, hcalls, hmade⟩, hmembers⟩

theorem throughout_run (hposes : Poses box island.population.problem)
    (hsource : YieldsDeviates island.session.source)
    (hmembers : ∀ individual ∈ island.population.individuals, Enclosed box individual.decision) :
    Throughout (Enclosed box) island (after (annealer.run island)) := by
  obtain ⟨cause, hfails⟩ | ⟨stages, individual, slot, hcheck, hbest, hrun⟩ :=
    run_fails_or_walks annealer island
  · rw [hfails]
    exact ⟨⟨[], rfl, nofun⟩, hmembers⟩
  · have hc := Nat.pos_of_ne_zero (checkProblem_eq_ok_iff.mp hcheck).1
    have hindividual := hmembers individual (List.mem_of_getElem? (best_getElem? hbest))
    let base : Session σ Binary64 := (Session.report (.annealingStarted annealer.name stages
      (individual.fitness.headD 0) island.population.problem.name) island.session).2
    have hbase : base.calls = island.session.calls := rfl
    have hstays : Stays box base
        (stroll annealer island.population.problem stages individual base) :=
      stays_stroll hposes hc stages hindividual hsource
    rw [hrun, lastWalk, walk_eq_stroll]
    exact throughout_concluded hmembers hbase hstays annealer slot

/-- What a run evaluates and what it leaves in the population lies in the box, but for undefined
components whose bounds are too far apart.  In a box of finite width the problem accepts it all. -/
theorem run_stays_in_box (hposes : Poses box island.population.problem)
    (hsource : YieldsDeviates island.session.source)
    (hverified : ∀ individual ∈ island.population.individuals,
      island.population.problem.verify individual.decision = .ok ()) :
    Throughout (Enclosed box) island (after (annealer.run island)) ∧
      ((∀ i < box.toProblem.continuousDimension, IsFinite (width box i)) →
        Throughout (fun x => island.population.problem.verify x = .ok ()) island
          (after (annealer.run island))) := by
  rw [hposes.verify_eq] at hverified ⊢
  have henclosed : Throughout (Enclosed box) island (after (annealer.run island)) := by
    apply throughout_run hposes hsource
    intro individual hmem
    exact .of_verify (hverified individual hmem)
  exact ⟨henclosed, fun hfinite => henclosed.mono fun x hx => hx.verify hfinite⟩

end Runs

def intervalBox : BoxProblem Binary64 where
  name := "problem"
  lower := [-1]
  upper := [1]
  objectives := 1
  objective := fun decision => [decision.headD 0]
  length_eq := rfl
  le_of_mem := by decide +kernel

theorem interval_run_stays_in_box :
    Throughout (fun x => interval.verify x = .ok ()) intervalIsland
      (after (standardAnnealer.run intervalIsland)) := by
  have hposes : Poses intervalBox intervalIsland.population.problem := ⟨0, false, rfl⟩
  have hdefined : ∀ x ∈ [(0.5 : Binary64)], x.isNaN = false := by decide +kernel
  have hsource : YieldsDeviates intervalIsland.session.source := by
    have hsession : intervalIsland.session.source = Script.ofList [0.5] := rfl
    rw [hsession]
    exact yieldsDeviates_ofList hdefined
  have hverified : ∀ individual ∈ intervalIsland.population.individuals,
      intervalIsland.population.problem.verify individual.decision = .ok () := by
    intro individual hmem
    rw [List.mem_singleton.mp hmem]
    rfl
  refine (run_stays_in_box hposes hsource hverified).2 ?_
  intro i hi
  obtain rfl : i = 0 := Nat.lt_one_iff.mp hi
  decide +kernel

end Archipelago.Proofs.Containment
