namespace Archipelago

/-- Numbers that decisions, fitness values and step sizes are computed in.  Nothing is assumed of
them here: operations may round, and the order may leave a value incomparable even with itself. -/
class Scalar (α : Type) extends Zero α, One α, Add α, Sub α, Mul α, Div α, Neg α, LT α, LE α,
    NatCast α, OfScientific α where
  decidableLT : DecidableLT α
  decidableLE : DecidableLE α
  /-- Largest whole number that is not above the argument. -/
  floor : α → α
  /-- Whole part as a natural number below `2 ^ 64`, clamped at both ends; zero if there is none. -/
  truncate : α → Nat

attribute [reducible, instance] Scalar.decidableLT Scalar.decidableLE

/-- What comparing the spread of vectors needs beyond arithmetic. -/
class Extended (α : Type) where
  infinity : α
  /-- A total order that refines the numeric one where numbers are comparable. -/
  totalLe : α → α → Bool

/-- Functions that only cooling and statistics use. -/
class Elementary (α : Type) where
  sqrt : α → α
  exp : α → α
  pow : α → α → α

namespace Scalar

variable {α : Type} [Scalar α]

/-- Smallest whole number that is not below the argument. -/
def ceil (x : α) : α :=
  -floor (-x)

/-- The argument is a whole number; infinities and incomparable values are not. -/
def IsWhole (x : α) : Prop :=
  x - floor x ≤ 0 ∧ 0 ≤ x - floor x

instance (x : α) : Decidable (IsWhole x) :=
  inferInstanceAs (Decidable (_ ∧ _))

/-- Smaller of two numbers, and the second one of a tie.  A value that is not even comparable with
itself gives way to the other one. -/
def lesser (a b : α) : α :=
  if a < b then a else if b ≤ b then b else a

def clamp (lower upper x : α) : α :=
  if x < lower then lower else if upper < x then upper else x

def magnitude (x : α) : α :=
  if x < 0 then -x else x

/-- Sum from left to right.  It starts at negative zero, which every addition leaves unchanged. -/
def total (xs : List α) : α :=
  xs.foldl (· + ·) (-0)

end Scalar

end Archipelago
