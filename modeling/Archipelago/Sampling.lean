import Archipelago.Session

namespace Archipelago.Sampling

variable {α : Type} [Scalar α]

/-- The number at the fraction `u` of the way from `lower` to `upper`.  Rounding may lead to `upper`
itself, which is folded back to `lower`. -/
def between (lower upper u : α) : α :=
  let x := lower + u * (upper - lower)
  if upper ≤ x ∧ lower < upper then lower else x

/-- The whole number at the fraction `u` of the way through those between `lower` and `upper`, both
ends included. -/
def wholeBetween (lower upper u : α) : α :=
  let least := Scalar.ceil lower
  let span := Scalar.floor upper - least + 1
  least + Scalar.lesser (Scalar.floor (u * span)) (span - 1)

variable {σ : Type} [Source σ α]

/-- One number for each pair of bounds. -/
def vector (lower upper : List α) : StateM (Session σ α) (List α) :=
  (lower.zip upper).mapM fun bounds => do
    let u ← Session.uniform
    pure (between bounds.1 bounds.2 u)

/-- One component for each pair of bounds, whole numbers from position `continuous` on. -/
def decision (continuous : Nat) (lower upper : List α) : StateM (Session σ α) (List α) :=
  (lower.zip upper).zipIdx.mapM fun ((lower, upper), index) => do
    let u ← Session.uniform
    pure (if index < continuous then between lower upper u else wholeBetween lower upper u)

end Archipelago.Sampling
