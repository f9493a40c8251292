import Archipelago.Scalar

namespace Archipelago.Crowding

variable {α : Type} [Scalar α] [Extended α]

/-- Adds to the distance of each slot, the first and the last one in `order` excepted, the gap
between the values of its neighbours as a share of the span. -/
def widen (value : Nat → α) (span : α) : (order : List Nat) → (distances : List α) → List α
  | before :: slot :: after :: rest, distances =>
    widen value span (slot :: after :: rest)
      (distances.modify slot (· + (value after - value before) / span))
  | _, distances => distances

/-- Takes one objective into account.  The slots are sorted by its values, starting from the order
that the objective before it has left. -/
def spread (front : List (List α)) (state : List Nat × List α) (objective : Nat) :
    List Nat × List α :=
  let value := fun slot => (front.getD slot []).getD objective 0
  let order := state.1.mergeSort fun a b => Extended.totalLe (value a) (value b)
  let low := order.headD 0
  let high := order.getLastD 0
  let span := value high - value low
  let distances := (state.2.set low Extended.infinity).set high Extended.infinity
  (order, if 0 < span then widen value span order distances else distances)

/-- Crowding distances of the vectors of one front: the more isolated a vector is, the larger is its
distance.  The extreme vectors of every objective are infinitely far away. -/
def ofFront (front : List (List α)) : List α :=
  if front.length ≤ 2 then List.replicate front.length Extended.infinity
  else
    ((List.range (front.headD []).length).foldl (spread front)
      (List.range front.length, List.replicate front.length 0)).2

/-- Writes the distances of the members of a front. -/
def assign (objectives : List (List α)) (distances : List α) (front : List Nat) : List α :=
  (front.zip (ofFront (front.map fun index => objectives.getD index []))).foldl
    (fun distances entry => distances.set entry.1 entry.2) distances

/-- Crowding distance of every vector within its front, and zero for those in no front. -/
def byFront (objectives : List (List α)) (fronts : List (List Nat)) : List α :=
  fronts.foldl (assign objectives) (List.replicate objectives.length 0)

/-- Crowding distance of every vector, with all of them as one front. -/
def distance (objectives : List (List α)) : List α :=
  ofFront objectives

end Archipelago.Crowding
