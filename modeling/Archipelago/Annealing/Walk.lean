import Archipelago.Annealing.Config
import Archipelago.Annealing.Schedule
import Archipelago.Annealing.Step
import Archipelago.Session

namespace Archipelago.Annealing

variable {σ α : Type} [Scalar α]

/-- What happened to the proposals of a walk, in counts that have no end to their range. -/
structure Tally where
  evaluations : Nat := 0
  outOfBounds : Nat := 0
  accepted : Nat := 0
  improving : Nat := 0
deriving DecidableEq

/-- What stays the same during a walk. -/
structure Course (α : Type) [Scalar α] where
  name : String
  problem : Problem α
  config : Config α
  /-- The factor between the temperatures of two stages. -/
  cooling : α

/-- State of an annealing walk. -/
structure Walk (σ α : Type) where
  point : List α
  fitness : List α
  /-- The point with a proposal in place of one component.  It is written to and restored component
  by component. -/
  trial : List α
  /-- Position of the component that the latest proposal was made for. -/
  position : Nat := 0
  /-- Step size of each continuous component. -/
  steps : List α
  /-- Accepted proposals for each continuous component since the latest adjustment. -/
  accepted : List Nat
  temperature : α
  tally : Tally := {}
  session : Session σ α

namespace Walk

/-- Runs an operation on the session of a walk. -/
def perform {β : Type} (walk : Walk σ α) (operation : StateM (Session σ α) β) :
    β × Walk σ α :=
  let (value, session) := operation walk.session
  (value, { walk with session })

/-- Restores the component that the latest proposal was made for. -/
def reject (walk : Walk σ α) : Walk σ α :=
  { walk with
    trial := walk.trial.set walk.position (walk.point.getD walk.position 0) }

/-- Rejects a proposal outside the bounds. -/
def skip (walk : Walk σ α) : Walk σ α :=
  { walk with
    tally := { walk.tally with outOfBounds := walk.tally.outOfBounds + 1 } }.reject

/-- Makes the trial point the current point. -/
def accept (walk : Walk σ α) (fitness : List α) : Walk σ α :=
  { walk with
    point := walk.point.set walk.position (walk.trial.getD walk.position 0)
    fitness
    accepted := walk.accepted.modify walk.position (· + 1)
    tally := { walk.tally with accepted := walk.tally.accepted + 1 } }

variable [Elementary α] [Source σ α]

/-- Accepts an improvement, and anything else with some probability. -/
def judge (course : Course α) (walk : Walk σ α) (fitness : List α) : Walk σ α :=
  if course.problem.preference.fitness fitness walk.fitness then
    { walk with tally := { walk.tally with improving := walk.tally.improving + 1 } }.accept fitness
  else
    let (u, walk) := walk.perform Session.uniform
    if u < acceptance (walk.fitness.headD 0) (fitness.headD 0) walk.temperature then
      walk.accept fitness
    else walk.reject

/-- Chooses the component after which the next sweep begins. -/
def aim (course : Course α) (walk : Walk σ α) : Walk σ α :=
  let (position, walk) :=
    walk.perform (Session.indexBelow course.problem.continuousDimension)
  { walk with position }

/-- Moves on to the next component and writes a proposal for it into the trial point. -/
def draft (course : Course α) (walk : Walk σ α) : α × Walk σ α :=
  let position := (walk.position + 1) % course.problem.continuousDimension
  let lower := course.problem.lower.getD position 0
  let upper := course.problem.upper.getD position 0
  let (u, walk) := walk.perform Session.uniform
  let value :=
    proposal (walk.point.getD position 0) (walk.steps.getD position 0) lower upper u
  (value, { walk with position, trial := walk.trial.set position value })

def evaluate (course : Course α) (walk : Walk σ α) : List α × Walk σ α :=
  let (fitness, walk) := walk.perform (Session.objective course.problem walk.trial)
  (fitness, { walk with tally := { walk.tally with evaluations := walk.tally.evaluations + 1 } })

/-- Proposes a new value for the next component.  Proposals outside the bounds are rejected without
evaluation. -/
def propose (course : Course α) (walk : Walk σ α) : Walk σ α :=
  let (value, walk) := walk.draft course
  let lower := course.problem.lower.getD walk.position 0
  let upper := course.problem.upper.getD walk.position 0
  if upper < value ∨ value < lower then walk.skip
  else
    let (fitness, walk) := walk.evaluate course
    walk.judge course fitness

/-- Adapts every step to the acceptance ratio of its component, and counts anew. -/
def adjust (course : Course α) (walk : Walk σ α) : Walk σ α :=
  { walk with
    steps := walk.steps.zipWith
      (fun step accepted =>
        rescaleStep step accepted course.config.perRangeAdjust course.config.stepRange)
      walk.accepted
    accepted := walk.accepted.map fun _ => 0 }

/-- Finishes a temperature stage. -/
def cool (course : Course α) (walk : Walk σ α) (stage : Nat) : Walk σ α :=
  let temperature := walk.temperature * course.cooling
  let event := .stageDone course.name stage temperature (walk.fitness.headD 0)
  ({ walk with temperature }.perform (Session.report event)).2

def move (course : Course α) (walk : Walk σ α) : Move → Walk σ α
  | .aim => walk.aim course
  | .propose => walk.propose course
  | .adjust => walk.adjust course
  | .cool stage => walk.cool course stage

/-- Performs moves in order.  A position that a vector does not have is read as zero. -/
def follow (course : Course α) (walk : Walk σ α) (moves : List Move) : Walk σ α :=
  moves.foldl (move course) walk

/-- Every vector that a proposal reads or writes has a place for the next component. -/
def HasPlace (course : Course α) (walk : Walk σ α) : Prop :=
  let position := (walk.position + 1) % course.problem.continuousDimension
  (position < walk.point.length ∧ position < walk.trial.length) ∧
    (position < walk.steps.length ∧ position < walk.accepted.length) ∧
    position < course.problem.lower.length ∧ position < course.problem.upper.length

instance (course : Course α) (walk : Walk σ α) : Decidable (walk.HasPlace course) :=
  inferInstanceAs (Decidable ((_ ∧ _) ∧ (_ ∧ _) ∧ _ ∧ _))

/-- What is no improvement is judged by the first values of both fitness vectors. -/
def judge? (course : Course α) (walk : Walk σ α) (fitness : List α) : Option (Walk σ α) :=
  if course.problem.preference.fitness fitness walk.fitness ∨
      0 < fitness.length ∧ 0 < walk.fitness.length then
    some (walk.judge course fitness)
  else none

def propose? (course : Course α) (walk : Walk σ α) : Option (Walk σ α) :=
  if walk.HasPlace course then
    let (value, walk) := walk.draft course
    let lower := course.problem.lower.getD walk.position 0
    let upper := course.problem.upper.getD walk.position 0
    if upper < value ∨ value < lower then some walk.skip
    else
      let (fitness, walk) := walk.evaluate course
      walk.judge? course fitness
  else none

/-- A move, or `none` if it reads a position that a vector does not have. -/
def move? (course : Course α) (walk : Walk σ α) : Move → Option (Walk σ α)
  | .aim => some (walk.aim course)
  | .propose => walk.propose? course
  | .adjust => some (walk.adjust course)
  | .cool stage => if 0 < walk.fitness.length then some (walk.cool course stage) else none

/-- Performs moves in order, up to one that reads a position that a vector does not have. -/
def follow? (course : Course α) (walk : Walk σ α) (moves : List Move) : Option (Walk σ α) :=
  moves.foldlM (move? course) walk

end Walk

end Archipelago.Annealing
