import Archipelago.Binary64
import Archipelago.Decimal

namespace Archipelago.Binary64

/-- The magnitude of a finite double: `mantissa * 2 ^ exponent`.  `evenGap` is false where the next
smaller double is only half as far away as the next larger one. -/
structure Exact where
  mantissa : Nat
  exponent : Int
  evenGap : Bool

def exponentField (x : Binary64) : Nat :=
  x.magnitude / Nat.pow 2 52

def fraction (x : Binary64) : Nat :=
  x.magnitude % Nat.pow 2 52

/-- Magnitude of a finite double. -/
def exact (x : Binary64) : Exact :=
  if x.exponentField = 0 then
    { mantissa := x.fraction, exponent := -1074, evenGap := true }
  else
    { mantissa := Nat.pow 2 52 + x.fraction
      exponent := x.exponentField - 1075
      evenGap := x.fraction ≠ 0 ∨ x.exponentField = 1 }

namespace Exact

/-- Quarter units in the last place: the double itself, and the two ends of the interval of numbers
that are nearest to it. -/
def centre (x : Exact) : Nat :=
  4 * x.mantissa

def low (x : Exact) : Nat :=
  4 * x.mantissa - if x.evenGap then 2 else 1

def high (x : Exact) : Nat :=
  4 * x.mantissa + 2

/-- A quarter unit and the power `10 ^ grid`, both as multiples of one common measure. -/
def scales (x : Exact) (grid : Int) : Nat × Nat :=
  (Nat.pow 2 (x.exponent - 2).toNat * Nat.pow 10 (-grid).toNat,
    Nat.pow 10 grid.toNat * Nat.pow 2 (2 - x.exponent).toNat)

/-- Whether `k * 10 ^ grid` is read back as this double.  The ends of the interval belong to the
even mantissa. -/
def contains (x : Exact) (grid : Int) (k : Nat) : Bool :=
  let (quarter, power) := x.scales grid
  if x.mantissa % 2 = 0 then
    x.low * quarter ≤ k * power && k * power ≤ x.high * quarter
  else
    x.low * quarter < k * power && k * power < x.high * quarter

/-- The point of a grid that is read back as this double, if there is one: of the two neighbours
that qualify the nearer one, and the larger one of a tie. -/
def nearest? (x : Exact) (grid : Int) : Option Nat :=
  let (quarter, power) := x.scales grid
  let below := x.centre * quarter / power
  let nearBelow := x.centre * quarter - below * power < (below + 1) * power - x.centre * quarter
  match x.contains grid below, x.contains grid (below + 1) with
  | true, true => some (if nearBelow then below else below + 1)
  | true, false => some below
  | false, true => some (below + 1)
  | false, false => none

/-- All digits of the double. -/
def expansion (x : Exact) : Decimal :=
  match x.exponent with
  | .ofNat e => { digits := x.mantissa * Nat.pow 2 e, exponent := 0 }
  | .negSucc e => { digits := x.mantissa * Nat.pow 5 (e + 1), exponent := .negSucc e }

/-- First grid with a point that is read back as this double, from the given one downwards. -/
def scan (x : Exact) : Nat → Int → Decimal
  | 0, _ => x.expansion
  | steps + 1, grid =>
    match x.nearest? grid with
    | some digits => { digits, exponent := grid }
    | none => scan x steps (grid - 1)

/-- The fewest digits that are read back as this double.  The first grid lies above the double, and
seventeen digits always suffice. -/
def shortest (x : Exact) : Decimal :=
  scan x 24 ((x.mantissa.log2 + x.exponent) * 1233 / 4096 + 2)

/-- The nearest number of millionths. -/
def millionths (x : Exact) : Nat :=
  Decimal.roundedQuotient (x.mantissa * Nat.pow 2 x.exponent.toNat * 1000000)
    (Nat.pow 2 (-x.exponent).toNat)

end Exact

end Archipelago.Binary64
