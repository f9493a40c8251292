import Archipelago.Annealing
import Mathlib.Data.List.Basic
import Mathlib.Logic.Function.Iterate

/-!
The annealing walk keeps a trial point beside its current point.  Both agree between moves, so that
the walk is the same as one that keeps a single vector.
-/

namespace Archipelago.Proofs.SingleVector

open Annealing

variable {σ α : Type} [Scalar α]

/-- State of a walk that has no trial point. -/
structure Stroll (σ α : Type) where
  point : List α
  fitness : List α
  position : Nat := 0
  steps : List α
  accepted : List Nat
  temperature : α
  tally : Tally := {}
  session : Session σ α

namespace Stroll

/-- The walk whose trial point is the current point. -/
def toWalk (s : Stroll σ α) : Walk σ α :=
  { point := s.point
    fitness := s.fitness
    trial := s.point
    position := s.position
    steps := s.steps
    accepted := s.accepted
    temperature := s.temperature
    tally := s.tally
    session := s.session }

def replace (s : Stroll σ α) (value : α) (fitness : List α) : Stroll σ α :=
  { s with
    point := s.point.set s.position value
    fitness
    accepted := s.accepted.modify s.position (· + 1)
    tally := { s.tally with accepted := s.tally.accepted + 1 } }

variable [Elementary α] [Source σ α]

def aim (course : Course α) (s : Stroll σ α) : Stroll σ α :=
  let (position, session) := Session.indexBelow course.problem.continuousDimension s.session
  { s with position, session }

def advance (course : Course α) (s : Stroll σ α) : Stroll σ α :=
  { s with
    position := (s.position + 1) % course.problem.continuousDimension
    session := (Session.uniform s.session).2 }

/-- The value that is proposed for the next component. -/
def proposed (course : Course α) (s : Stroll σ α) : α :=
  let position := (s.position + 1) % course.problem.continuousDimension
  proposal (s.point.getD position 0) (s.steps.getD position 0)
    (course.problem.lower.getD position 0) (course.problem.upper.getD position 0)
    (Session.uniform s.session).1

def Outside (course : Course α) (position : Nat) (value : α) : Prop :=
  course.problem.upper.getD position 0 < value ∨ value < course.problem.lower.getD position 0

omit [Elementary α] [Source σ α] in
instance (course : Course α) (position : Nat) (value : α) :
    Decidable (Outside course position value) :=
  inferInstanceAs (Decidable (_ ∨ _))

def skip (s : Stroll σ α) : Stroll σ α :=
  { s with tally := { s.tally with outOfBounds := s.tally.outOfBounds + 1 } }

def evaluate (course : Course α) (s : Stroll σ α) (value : α) : List α × Stroll σ α :=
  let (fitness, session) :=
    Session.objective course.problem (s.point.set s.position value) s.session
  (fitness,
    { s with session, tally := { s.tally with evaluations := s.tally.evaluations + 1 } })

def judge (course : Course α) (s : Stroll σ α) (value : α) (fitness : List α) : Stroll σ α :=
  if course.problem.preference.fitness fitness s.fitness then
    { s with tally := { s.tally with improving := s.tally.improving + 1 } }.replace value fitness
  else
    let (u, session) := Session.uniform s.session
    if u < acceptance (s.fitness.headD 0) (fitness.headD 0) s.temperature then
      { s with session }.replace value fitness
    else { s with session }

def propose (course : Course α) (s : Stroll σ α) : Stroll σ α :=
  let value := s.proposed course
  let s := s.advance course
  if Outside course s.position value then s.skip
  else
    let (fitness, s) := s.evaluate course value
    s.judge course value fitness

def adjust (course : Course α) (s : Stroll σ α) : Stroll σ α :=
  { s with
    steps := s.steps.zipWith
      (fun step accepted =>
        rescaleStep step accepted course.config.perRangeAdjust course.config.stepRange)
      s.accepted
    accepted := s.accepted.map fun _ => 0 }

def cool (course : Course α) (s : Stroll σ α) (stage : Nat) : Stroll σ α :=
  let temperature := s.temperature * course.cooling
  let event := .stageDone course.name stage temperature (s.fitness.headD 0)
  { s with temperature, session := (Session.report event s.session).2 }

def sweep (course : Course α) (s : Stroll σ α) : Stroll σ α :=
  (propose course)^[course.problem.continuousDimension] (s.aim course)

def block (course : Course α) (s : Stroll σ α) : Stroll σ α :=
  ((sweep course)^[course.config.perRangeAdjust] s).adjust course

def stage (course : Course α) (s : Stroll σ α) (index : Nat) : Stroll σ α :=
  ((block course)^[course.config.perTemperature] s).cool course index

def wander (course : Course α) (stages : Nat) (s : Stroll σ α) : Stroll σ α :=
  (List.range stages).foldl (stage course) s

def move (course : Course α) (s : Stroll σ α) : Move → Stroll σ α
  | .aim => s.aim course
  | .propose => s.propose course
  | .adjust => s.adjust course
  | .cool stage => s.cool course stage

end Stroll

theorem set_getD_self {β : Type} (xs : List β) (i : Nat) (d : β) :
    xs.set i (xs.getD i d) = xs := by
  rcases Nat.lt_or_ge i xs.length with hi | hi
  · simp [hi]
  · exact List.set_eq_of_length_le hi

theorem set_getD_set {β : Type} (xs : List β) (i : Nat) (x d : β) :
    xs.set i ((xs.set i x).getD i d) = xs.set i x := by
  rcases Nat.lt_or_ge i xs.length with hi | hi
  · simp [hi]
  · rw [List.set_eq_of_length_le hi, List.set_eq_of_length_le hi]

/-- A walk whose trial point holds a proposal for the component at hand. -/
def ahead (s : Stroll σ α) (value : α) : Walk σ α :=
  { s.toWalk with trial := s.point.set s.position value }

theorem reject_ahead (s : Stroll σ α) (value : α) : (ahead s value).reject = s.toWalk := by
  simp only [ahead, Walk.reject, Stroll.toWalk, List.set_set, set_getD_self]

theorem accept_ahead (s : Stroll σ α) (value : α) (fitness : List α) :
    (ahead s value).accept fitness = (s.replace value fitness).toWalk := by
  simp only [ahead, Walk.accept, Stroll.toWalk, Stroll.replace, set_getD_set]

section Moves

variable [Elementary α] [Source σ α]

theorem judge_ahead (course : Course α) (s : Stroll σ α) (value : α) (fitness : List α) :
    (ahead s value).judge course fitness = (s.judge course value fitness).toWalk := by
  have hfitness : (ahead s value).fitness = s.fitness := rfl
  rw [Walk.judge, Stroll.judge, hfitness]
  split
  · exact accept_ahead
      { s with tally := { s.tally with improving := s.tally.improving + 1 } } value fitness
  · let next : Stroll σ α := { s with session := (Session.uniform s.session).2 }
    change (if _ then (ahead next value).accept fitness else (ahead next value).reject) = _
    rw [accept_ahead, reject_ahead]
    exact (apply_ite Stroll.toWalk _ _ _).symm

theorem propose_toWalk (course : Course α) (s : Stroll σ α) :
    s.toWalk.propose course = (s.propose course).toWalk := by
  let value := s.proposed course
  let next := s.advance course
  let evaluated := next.evaluate course value
  change (if Stroll.Outside course next.position value then (ahead next.skip value).reject
    else (ahead evaluated.2 value).judge course evaluated.1) = _
  rw [reject_ahead, judge_ahead]
  exact (apply_ite Stroll.toWalk _ _ _).symm

theorem move_toWalk (course : Course α) (s : Stroll σ α) (move : Move) :
    s.toWalk.move course move = (s.move course move).toWalk := by
  cases move with
  | aim => rfl
  | propose => exact propose_toWalk course s
  | adjust => rfl
  | cool stage => rfl

theorem follow_toWalk (course : Course α) (moves : List Move) (s : Stroll σ α) :
    s.toWalk.follow course moves = (moves.foldl (Stroll.move course) s).toWalk := by
  induction moves generalizing s with
  | nil => rfl
  | cons move moves ih =>
      change (s.toWalk.move course move).follow course moves = _
      rw [move_toWalk, ih, List.foldl_cons]

end Moves

theorem foldl_flatten_replicate {β γ : Type} (f : β → γ → β) (xs : List γ) (n : Nat) (s : β) :
    (List.replicate n xs).flatten.foldl f s = (fun s => xs.foldl f s)^[n] s := by
  induction n generalizing s with
  | zero => rfl
  | succ n ih =>
      rw [List.replicate_succ, List.flatten_cons, List.foldl_append, ih,
        Function.iterate_succ_apply]

theorem foldl_replicate {β γ : Type} (f : β → γ → β) (x : γ) (n : Nat) (s : β) :
    (List.replicate n x).foldl f s = (fun s => f s x)^[n] s := by
  induction n generalizing s with
  | zero => rfl
  | succ n ih => rw [List.replicate_succ, List.foldl_cons, ih, Function.iterate_succ_apply]

section Loops

variable [Elementary α] [Source σ α] (course : Course α)

theorem foldl_sweep (s : Stroll σ α) :
    (sweep course.problem.continuousDimension).foldl (Stroll.move course) s = s.sweep course := by
  rw [sweep, List.foldl_cons, foldl_replicate]
  rfl

theorem foldl_block (s : Stroll σ α) :
    (block course.config.perRangeAdjust course.problem.continuousDimension).foldl
      (Stroll.move course) s = s.block course := by
  rw [block, List.foldl_append, foldl_flatten_replicate]
  simp only [foldl_sweep]
  rfl

theorem foldl_stage (s : Stroll σ α) (index : Nat) :
    (stage course.config.perTemperature course.config.perRangeAdjust
      course.problem.continuousDimension index).foldl (Stroll.move course) s =
        s.stage course index := by
  rw [stage, List.foldl_append, foldl_flatten_replicate]
  simp only [foldl_block]
  rfl

theorem foldl_schedule (stages : Nat) (s : Stroll σ α) :
    (schedule stages course.config.perTemperature course.config.perRangeAdjust
      course.problem.continuousDimension).foldl (Stroll.move course) s =
        s.wander course stages := by
  rw [schedule, List.foldl_flatMap]
  simp only [foldl_stage]
  rfl

end Loops

section Invariant

variable [Elementary α] [Source σ α]

/-- The four ways in which a proposal ends: outside the bounds, as an improvement, accepted by a
draw, rejected by a draw. -/
theorem propose_cases (course : Course α) (s : Stroll σ α) :
    let value := s.proposed course
    let next := s.advance course
    let fitness := (next.evaluate course value).1
    let evaluated := (next.evaluate course value).2
    let drawn := Session.uniform evaluated.session
    Stroll.Outside course next.position value ∧ s.propose course = next.skip ∨
    ¬Stroll.Outside course next.position value ∧
      course.problem.preference.fitness fitness evaluated.fitness ∧
      s.propose course =
        { evaluated with
          tally := { evaluated.tally with improving := evaluated.tally.improving + 1 } }.replace
            value fitness ∨
    ¬Stroll.Outside course next.position value ∧
      ¬course.problem.preference.fitness fitness evaluated.fitness ∧
      (drawn.1 < acceptance (evaluated.fitness.headD 0) (fitness.headD 0) evaluated.temperature ∧
        s.propose course = { evaluated with session := drawn.2 }.replace value fitness ∨
      ¬drawn.1 < acceptance (evaluated.fitness.headD 0) (fitness.headD 0)
          evaluated.temperature ∧
        s.propose course = { evaluated with session := drawn.2 }) := by
  intro value next fitness evaluated drawn
  have hpropose : s.propose course =
      if Stroll.Outside course next.position value then next.skip
      else evaluated.judge course value fitness := rfl
  rw [hpropose]
  by_cases houtside : Stroll.Outside course next.position value
  · exact .inl ⟨houtside, if_pos houtside⟩
  rw [if_neg houtside]
  have hjudge : evaluated.judge course value fitness =
      if course.problem.preference.fitness fitness evaluated.fitness then
        { evaluated with
          tally := { evaluated.tally with improving := evaluated.tally.improving + 1 } }.replace
            value fitness
      else if drawn.1 < acceptance (evaluated.fitness.headD 0) (fitness.headD 0)
          evaluated.temperature then
        { evaluated with session := drawn.2 }.replace value fitness
      else { evaluated with session := drawn.2 } := rfl
  rw [hjudge]
  by_cases himproves : course.problem.preference.fitness fitness evaluated.fitness = true
  · exact .inr (.inl ⟨houtside, himproves, if_pos himproves⟩)
  rw [if_neg himproves]
  by_cases haccepted : drawn.1 < acceptance (evaluated.fitness.headD 0) (fitness.headD 0)
      evaluated.temperature
  · exact .inr (.inr ⟨houtside, himproves, .inl ⟨haccepted, if_pos haccepted⟩⟩)
  · exact .inr (.inr ⟨houtside, himproves, .inr ⟨haccepted, if_neg haccepted⟩⟩)

/-- How the point of a walk depends on the individual that it started from. -/
structure Tracks (problem : Problem α) (individual : Individual α) (s : Stroll σ α) : Prop where
  length_eq : s.point.length = individual.decision.length
  kept : ∀ j, problem.continuousDimension ≤ j → s.point[j]? = individual.decision[j]?
  unmoved : s.tally.accepted = 0 → s.point = individual.decision ∧ s.fitness = individual.fitness
  evaluated : 0 < s.tally.accepted → s.fitness = problem.objective s.point

/-- A proposal leaves point and fitness as they are, or it replaces one component and takes the
fitness of the point that this makes. -/
theorem propose_point (course : Course α) (s : Stroll σ α) :
    ((s.propose course).point = s.point ∧ (s.propose course).fitness = s.fitness ∧
      (s.propose course).tally.accepted = s.tally.accepted) ∨
    ((s.propose course).point =
        s.point.set ((s.position + 1) % course.problem.continuousDimension) (s.proposed course) ∧
      (s.propose course).fitness = course.problem.objective (s.propose course).point ∧
      (s.propose course).tally.accepted = s.tally.accepted + 1) := by
  obtain ⟨-, h⟩ | ⟨-, -, h⟩ | ⟨-, -, ⟨-, h⟩ | ⟨-, h⟩⟩ := propose_cases course s
  · exact .inl (by rw [h]; exact ⟨rfl, rfl, rfl⟩)
  · exact .inr (by rw [h]; exact ⟨rfl, rfl, rfl⟩)
  · exact .inr (by rw [h]; exact ⟨rfl, rfl, rfl⟩)
  · exact .inl (by rw [h]; exact ⟨rfl, rfl, rfl⟩)

theorem propose_calls (course : Course α) (s : Stroll σ α) :
    (s.propose course).session.calls =
      if Stroll.Outside course ((s.position + 1) % course.problem.continuousDimension)
          (s.proposed course) then s.session.calls
      else
        .objective (s.point.set ((s.position + 1) % course.problem.continuousDimension)
          (s.proposed course)) :: s.session.calls := by
  obtain ⟨ho, h⟩ | ⟨ho, -, h⟩ | ⟨ho, -, ⟨-, h⟩ | ⟨-, h⟩⟩ := propose_cases course s
  · rw [h]
    exact (if_pos ho).symm
  · rw [h]
    exact (if_neg ho).symm
  · rw [h]
    exact (if_neg ho).symm
  · rw [h]
    exact (if_neg ho).symm

omit [Scalar α] [Elementary α] in
theorem getElem?_set_mod {xs : List α} {c : Nat} (hc : 0 < c) (i : Nat) (x : α) {j : Nat}
    (hj : c ≤ j) : (xs.set (i % c) x)[j]? = xs[j]? := by
  have := Nat.mod_lt i hc
  exact List.getElem?_set_ne (by omega)

theorem tracks_propose {course : Course α} {individual : Individual α} {s : Stroll σ α}
    (hc : 0 < course.problem.continuousDimension) (h : Tracks course.problem individual s) :
    Tracks course.problem individual (s.propose course) := by
  rcases propose_point course s with ⟨hpoint, hfitness, haccepted⟩ | ⟨hpoint, hfitness, haccepted⟩
  · constructor
    · rw [hpoint, h.length_eq]
    · simpa only [hpoint] using h.kept
    · simpa only [hpoint, hfitness, haccepted] using h.unmoved
    · simpa only [hpoint, hfitness, haccepted] using h.evaluated
  · constructor
    · rw [hpoint, List.length_set, h.length_eq]
    · intro j hj
      rw [hpoint, getElem?_set_mod hc _ _ hj, h.kept j hj]
    · intro hnone
      omega
    · exact fun _ => hfitness

theorem tracks_move {course : Course α} {individual : Individual α} {s : Stroll σ α}
    (hc : 0 < course.problem.continuousDimension) (h : Tracks course.problem individual s)
    (move : Move) : Tracks course.problem individual (s.move course move) := by
  cases move with
  | propose => exact tracks_propose hc h
  | aim | adjust | cool => exact ⟨h.length_eq, h.kept, h.unmoved, h.evaluated⟩

theorem tracks_foldl {course : Course α} {individual : Individual α}
    (hc : 0 < course.problem.continuousDimension) (moves : List Move) {s : Stroll σ α}
    (h : Tracks course.problem individual s) :
    Tracks course.problem individual (moves.foldl (Stroll.move course) s) := by
  induction moves generalizing s with
  | nil => exact h
  | cons move moves ih => exact ih (tracks_move hc h move)

end Invariant

theorem checkProblem_eq_ok_iff {annealer : Annealer α} {problem : Problem α} {stages : Nat} :
    annealer.checkProblem problem = .ok stages ↔
      problem.continuousDimension ≠ 0 ∧ problem.constraintDimension = 0 ∧
        problem.fitnessDimension = 1 ∧
        annealer.config.stages problem.continuousDimension = stages ∧ stages ≠ 0 := by
  simp only [Annealer.checkProblem]
  split_ifs
  · simp_all
  · simp_all
  · simp_all
  · simp_all
  · simp only [Except.ok.injEq]
    grind

section Runs

variable [Elementary α]

def startStroll (annealer : Annealer α) (problem : Problem α) (individual : Individual α)
    (session : Session σ α) : Stroll σ α where
  point := individual.decision
  fitness := individual.fitness
  steps := List.replicate problem.continuousDimension annealer.config.stepRange
  accepted := List.replicate problem.continuousDimension 0
  temperature := annealer.config.startTemperature
  session := session

variable [Source σ α]

def stroll (annealer : Annealer α) (problem : Problem α) (stages : Nat)
    (individual : Individual α) (session : Session σ α) : Stroll σ α :=
  (startStroll annealer problem individual session).wander (annealer.course problem stages) stages

omit [Elementary α] [Source σ α] in
theorem start_eq_toWalk (annealer : Annealer α) (problem : Problem α) (individual : Individual α)
    (session : Session σ α) :
    annealer.start problem individual session =
      (startStroll annealer problem individual session).toWalk :=
  rfl

theorem walk_eq_stroll (annealer : Annealer α) (problem : Problem α) (stages : Nat)
    (individual : Individual α) (session : Session σ α) :
    annealer.walk problem stages individual session =
      (stroll annealer problem stages individual session).toWalk := by
  rw [Annealer.walk, start_eq_toWalk, follow_toWalk, stroll, ← foldl_schedule]
  rfl

omit [Elementary α] [Source σ α] in
theorem tracks_start (annealer : Annealer α) (problem : Problem α) (individual : Individual α)
    (session : Session σ α) :
    Tracks problem individual (startStroll annealer problem individual session) where
  length_eq := rfl
  kept _ _ := rfl
  unmoved _ := ⟨rfl, rfl⟩
  evaluated h := absurd h (Nat.lt_irrefl 0)

/-- What holds of a walk between any two moves. -/
structure InStep (problem : Problem α) (individual : Individual α) (walk : Walk σ α) : Prop where
  trial_eq : walk.trial = walk.point
  kept : ∀ j, problem.continuousDimension ≤ j → walk.point[j]? = individual.decision[j]?
  unmoved : walk.tally.accepted = 0 →
    walk.point = individual.decision ∧ walk.fitness = individual.fitness
  evaluated : 0 < walk.tally.accepted → walk.fitness = problem.objective walk.point

/-- The next proposal of a walk evaluates nothing but its point with a new value of the component
after the latest one. -/
def ChangesOneComponent (course : Course α) (individual : Individual α) (walk : Walk σ α) : Prop :=
  let d := (walk.position + 1) % course.problem.continuousDimension
  let (lower, upper) := (course.problem.lower.getD d 0, course.problem.upper.getD d 0)
  let (u, _) := Session.uniform walk.session
  let value := walk.point.getD d 0 + (2.0 * u - 1) * walk.steps.getD d 0 * (upper - lower)
  let x := walk.point.set d value
  d < course.problem.continuousDimension ∧
    (∀ j, j ≠ d → x[j]? = walk.point[j]?) ∧
    (∀ j, course.problem.continuousDimension ≤ j → x[j]? = individual.decision[j]?) ∧
    (walk.propose course).session.calls =
      if upper < value ∨ value < lower then walk.session.calls
      else .objective x :: walk.session.calls

/-- The walk of a run from an individual, move by move and as a whole. -/
structure KeepsSingleVector (annealer : Annealer α) (problem : Problem α) (stages : Nat)
    (individual : Individual α) (session : Session σ α) : Prop where
  inStep : ∀ done left, annealer.moves problem stages = done ++ left →
    InStep problem individual
      ((annealer.start problem individual session).follow (annealer.course problem stages) done)
  changesOne : ∀ done left, annealer.moves problem stages = done ++ .propose :: left →
    ChangesOneComponent (annealer.course problem stages) individual
      ((annealer.start problem individual session).follow (annealer.course problem stages) done)
  walk_eq : annealer.walk problem stages individual session =
    (stroll annealer problem stages individual session).toWalk

omit [Elementary α] [Source σ α] in
theorem inStep_toWalk {problem : Problem α} {individual : Individual α} {s : Stroll σ α}
    (h : Tracks problem individual s) : InStep problem individual s.toWalk :=
  ⟨rfl, h.kept, h.unmoved, h.evaluated⟩

theorem changesOneComponent_toWalk {course : Course α} {individual : Individual α}
    {s : Stroll σ α} (hc : 0 < course.problem.continuousDimension)
    (h : Tracks course.problem individual s) :
    ChangesOneComponent course individual s.toWalk := by
  refine ⟨Nat.mod_lt _ hc, fun j hj => List.getElem?_set_ne (Ne.symm hj), fun j hj => ?_, ?_⟩
  · exact (getElem?_set_mod hc _ _ hj).trans (h.kept j hj)
  · rw [propose_toWalk]
    exact propose_calls course s

theorem tracks_course {annealer : Annealer α} {problem : Problem α}
    (hc : 0 < problem.continuousDimension) (stages : Nat) (individual : Individual α)
    (session : Session σ α) (moves : List Move) :
    Tracks problem individual
      (moves.foldl (Stroll.move (annealer.course problem stages))
        (startStroll annealer problem individual session)) := by
  have hstart : Tracks (annealer.course problem stages).problem individual
      (startStroll annealer problem individual session) :=
    tracks_start annealer problem individual session
  have hpos : 0 < (annealer.course problem stages).problem.continuousDimension := hc
  exact tracks_foldl hpos moves hstart

theorem tracks_stroll {annealer : Annealer α} {problem : Problem α}
    (hc : 0 < problem.continuousDimension) (stages : Nat) (individual : Individual α)
    (session : Session σ α) :
    Tracks problem individual (stroll annealer problem stages individual session) := by
  rw [stroll, ← foldl_schedule]
  exact tracks_course hc stages individual session _

theorem keepsSingleVector {annealer : Annealer α} {problem : Problem α} {stages : Nat}
    (hcheck : annealer.checkProblem problem = .ok stages) (individual : Individual α)
    (session : Session σ α) : KeepsSingleVector annealer problem stages individual session := by
  have hc := Nat.pos_of_ne_zero (checkProblem_eq_ok_iff.mp hcheck).1
  have hpos : 0 < (annealer.course problem stages).problem.continuousDimension := hc
  constructor
  case inStep =>
    intro done left _
    rw [start_eq_toWalk, follow_toWalk]
    exact inStep_toWalk (tracks_course hc stages individual session done)
  case changesOne =>
    intro done left _
    rw [start_eq_toWalk, follow_toWalk]
    exact changesOneComponent_toWalk hpos (tracks_course hc stages individual session done)
  case walk_eq => exact walk_eq_stroll annealer problem stages individual session

end Runs

end Archipelago.Proofs.SingleVector
