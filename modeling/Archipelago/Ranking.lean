import Archipelago.Dominance

namespace Archipelago

/-- Items sorted by how deeply they are dominated.  Items in a cycle of dominance, and those below
one, are in no front and keep rank zero. -/
structure Ranking where
  fronts : List (List Nat)
  ranks : List Nat
deriving DecidableEq

namespace Ranking

/-- The pairs `i < j` of items below `n`, in lexicographic order. -/
def pairs (n : Nat) : List (Nat × Nat) :=
  (List.range n).flatMap fun i => (List.range' (i + 1) (n - (i + 1))).map fun j => (i, j)

/-- What is known of each item: how many items dominate it, and which ones it dominates. -/
structure Ledger where
  counts : List Nat
  dominated : List (List Nat)

namespace Ledger

def blank (n : Nat) : Ledger where
  counts := List.replicate n 0
  dominated := List.replicate n []

/-- Notes that item `i` dominates item `j`. -/
def note (ledger : Ledger) (i j : Nat) : Ledger where
  counts := ledger.counts.modify j (· + 1)
  dominated := ledger.dominated.modify i (· ++ [j])

/-- Notes what has been found out about items `i` and `j`. -/
def enter (ledger : Ledger) (i j : Nat) : Dominance → Ledger
  | .left => ledger.note i j
  | .right => ledger.note j i
  | .neither => ledger

/-- The items that item `i` dominates. -/
def row (ledger : Ledger) (i : Nat) : List Nat :=
  ledger.dominated.getD i []

end Ledger

/-- Asks about each of the given pairs once. -/
def survey {m : Type → Type} [Monad m] (relation : Nat → Nat → m Dominance) :
    List (Nat × Nat) → Ledger → m Ledger
  | [], ledger => pure ledger
  | (i, j) :: rest, ledger => do
    let verdict ← relation i j
    survey relation rest (ledger.enter i j verdict)

/-- Progress of taking away front after front. -/
structure Peeling where
  /-- How many items dominate each item and are still in place. -/
  counts : List Nat
  ranks : List Nat
  /-- What has been taken away. -/
  fronts : List (List Nat) := []
  /-- The front to be taken away next. -/
  current : List Nat
  /-- Items for the front after that one. -/
  freed : List Nat := []

namespace Peeling

def start (n : Nat) (ledger : Ledger) : Peeling where
  counts := ledger.counts
  ranks := List.replicate n 0
  current := (List.range n).filter fun item => ledger.counts.getD item 0 = 0

def count (peeling : Peeling) (item : Nat) : Nat :=
  peeling.counts.getD item 0

/-- Takes away one of the items that dominate `item`, which is freed if that was the last one. -/
def strike (peeling : Peeling) (item : Nat) : Peeling :=
  let count := peeling.count item - 1
  let peeling := { peeling with counts := peeling.counts.set item count }
  if count = 0 then
    { peeling with
      ranks := peeling.ranks.set item (peeling.fronts.length + 1)
      freed := peeling.freed ++ [item] }
  else peeling

/-- The items to be struck when the current front is taken away. -/
def strikes (ledger : Ledger) (peeling : Peeling) : List Nat :=
  peeling.current.flatMap ledger.row

/-- Takes away the current front. -/
def round (ledger : Ledger) (peeling : Peeling) : Peeling :=
  let struck := (peeling.strikes ledger).foldl strike peeling
  { struck with
    fronts := peeling.fronts ++ [peeling.current]
    current := struck.freed.mergeSort
    freed := [] }

/-- Takes away front after front until one is empty, with a bound on the number of rounds. -/
def peel (ledger : Ledger) : (rounds : Nat) → Peeling → Peeling
  | 0, peeling => peeling
  | rounds + 1, peeling =>
    if peeling.current.isEmpty then peeling else peel ledger rounds (peeling.round ledger)

end Peeling

/-- Every round takes away an item, so as many rounds as there are items suffice. -/
def ofLedger (n : Nat) (ledger : Ledger) : Ranking :=
  let last := Peeling.peel ledger n (.start n ledger)
  { fronts := last.fronts, ranks := last.ranks }

/-- Sorts the items below `n`.  `relation i j` with `i < j` says which of two items dominates the
other; it need not be transitive. -/
def sortM {m : Type → Type} [Monad m] (n : Nat) (relation : Nat → Nat → m Dominance) :
    m Ranking := do
  let ledger ← survey relation (pairs n) (.blank n)
  pure (ofLedger n ledger)

def sort (n : Nat) (relation : Nat → Nat → Dominance) : Ranking :=
  Id.run (sortM n fun i j => pure (relation i j))

/-- Sorts objective vectors by Pareto dominance. -/
def ofObjectives {α : Type} [Scalar α] (objectives : List (List α)) : Ranking :=
  sort objectives.length fun i j => dominance (objectives.getD i []) (objectives.getD j [])

end Ranking

end Archipelago
