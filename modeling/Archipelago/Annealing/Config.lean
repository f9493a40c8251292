import Archipelago.Error
import Archipelago.Scalar

namespace Archipelago.Annealing

variable {α : Type} [Scalar α]

/-- Counts are kept below `2 ^ 64`; products that would leave this range stop at its end. -/
def maxCount : Nat :=
  Nat.pow 2 64 - 1

def saturated (n : Nat) : Nat :=
  min n maxCount

/-- Budget, temperatures and step control of an annealing run.  Steps are fractions of the width of
the bounds. -/
structure Config (α : Type) where
  totalIterations : Nat
  startTemperature : α
  endTemperature : α
  /-- Adjustments of the steps in each temperature stage. -/
  perTemperature : Nat
  /-- Sweeps between two adjustments of the steps. -/
  perRangeAdjust : Nat
  /-- The initial step, which is also the largest. -/
  stepRange : α
deriving DecidableEq

namespace Config

def standard : Config α where
  totalIterations := 10000
  startTemperature := 10.0
  endTemperature := 0.1
  perTemperature := 1
  perRangeAdjust := 1
  stepRange := 1

/-- Proposals in one temperature stage. -/
def iterationsPerStage (config : Config α) (continuous : Nat) : Nat :=
  saturated (saturated (config.perTemperature * config.perRangeAdjust) * continuous)

/-- Temperature stages that the budget affords. -/
def stages (config : Config α) (continuous : Nat) : Nat :=
  config.totalIterations / config.iterationsPerStage continuous

/-- Stated so that incomparable values are refused. -/
def check (config : Config α) : Except (Misconfiguration α) Unit :=
  if config.totalIterations = 0 then .error .noIterations
  else if ¬(0 < config.endTemperature ∧ config.endTemperature < config.startTemperature) then
    .error (.temperatures config.startTemperature config.endTemperature)
  else if ¬(0 ≤ config.stepRange ∧ config.stepRange ≤ 1) then
    .error (.stepRange config.stepRange)
  else .ok ()

end Config

end Archipelago.Annealing
