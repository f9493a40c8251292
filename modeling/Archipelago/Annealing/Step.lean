import Archipelago.Scalar

namespace Archipelago.Annealing

variable {α : Type} [Scalar α]

/-- New step after some of a number of trials have been accepted.  A step grows up to threefold if
more than six in ten are, shrinks down to a third if less than four in ten are, and never exceeds
`largest`. -/
def rescaleStep (step : α) (accepted trials : Nat) (largest : α) : α :=
  let ratio := (accepted : α) / (trials : α)
  let rescaled :=
    if 0.6 < ratio then step * (1 + 2.0 * (ratio - 0.6) / 0.4)
    else if ratio < 0.4 then step / (1 + 2.0 * (0.4 - ratio) / 0.4)
    else step
  Scalar.lesser rescaled largest

/-- The value that is proposed for a component.  The deviate `u` leads upwards from one half on, and
by at most one step. -/
def proposal (value step lower upper u : α) : α :=
  value + (2.0 * u - 1) * step * (upper - lower)

/-- The probability of accepting a move that is not an improvement.  It grows with the change of
fitness. -/
def acceptance [Elementary α] (before after temperature : α) : α :=
  Elementary.exp (Scalar.magnitude (before - after) / temperature)

/-- The factor between the temperatures of two stages. -/
def coolingFactor [Elementary α] (start stop : α) (stages : Nat) : α :=
  Elementary.pow (stop / start) (1 / (stages : α))

end Archipelago.Annealing
