namespace Archipelago.Annealing

/-- Elementary moves of an annealing run. -/
inductive Move where
  /-- Choose the component after which the next sweep begins. -/
  | aim
  /-- Propose a new value for the next component. -/
  | propose
  /-- Adapt the steps to the acceptance ratios. -/
  | adjust
  /-- Finish a temperature stage. -/
  | cool (stage : Nat)
deriving DecidableEq

/-- A sweep has one proposal for each component. -/
def sweep (components : Nat) : List Move :=
  .aim :: List.replicate components .propose

/-- Sweeps up to an adjustment of the steps. -/
def block (sweeps components : Nat) : List Move :=
  (List.replicate sweeps (sweep components)).flatten ++ [.adjust]

def stage (blocks sweeps components index : Nat) : List Move :=
  (List.replicate blocks (block sweeps components)).flatten ++ [.cool index]

/-- All moves of a run, in order. -/
def schedule (stages blocks sweeps components : Nat) : List Move :=
  (List.range stages).flatMap (stage blocks sweeps components)

end Archipelago.Annealing
