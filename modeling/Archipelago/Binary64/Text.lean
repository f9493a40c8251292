import Archipelago.Text
import Archipelago.Binary64.Shortest

namespace Archipelago.Binary64

/-- Text of a double, given the text of a finite magnitude. -/
def write (finite : Exact → List Char) (x : Binary64) : String :=
  if x.isNaN then "NaN"
  else
    let sign := if x.negative then ['-'] else []
    String.ofList (sign ++ if x.abs = infinity then "inf".toList else finite x.exact)

def digitsOf (x : Exact) : Decimal :=
  if x.mantissa = 0 then { digits := 0, exponent := 0 } else x.shortest

def plain (x : Exact) : List Char :=
  (digitsOf x).positional

/-- Scientific from `10 ^ 16` upwards and below `10 ^ -4`. -/
def literal (x : Exact) : List Char :=
  let d := digitsOf x
  if x.mantissa ≠ 0 ∧ (16 < d.order ∨ d.order ≤ -4) then d.scientific else d.pointed

def sixPlaces (x : Exact) : List Char :=
  Decimal.pointed { digits := x.millionths, exponent := -6 }

instance : Numeral Binary64 where
  plain := write plain
  literal := write literal
  sixPlaces := write sixPlaces

end Archipelago.Binary64
