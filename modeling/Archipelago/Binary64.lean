import Archipelago.Scalar

namespace Archipelago

/-- A number of double precision as a word of 64 bits: the sign, eleven bits of exponent and 52 of
fraction.  Undefined values come with a sign as well. -/
structure Binary64 where
  bits : UInt64
deriving DecidableEq

namespace Binary64

/-- The first bit, which is the sign. -/
def signBit : UInt64 :=
  0x8000000000000000

/-- The first bit of the fraction. -/
def quietBit : UInt64 :=
  0x0008000000000000

def infinity : Binary64 :=
  ⟨0x7ff0000000000000⟩

/-- The undefined value that stands for the result of a meaningless operation, such as the
difference of two infinities. -/
def invalid : Binary64 :=
  ⟨0xfff8000000000000⟩

def negative (x : Binary64) : Bool :=
  signBit ≤ x.bits

/-- The bits without the sign.  They are in the order of the absolute values. -/
def magnitude (x : Binary64) : Nat :=
  (x.bits % signBit).toNat

def isNaN (x : Binary64) : Bool :=
  infinity.magnitude < x.magnitude

/-- Place of a number on a scale that has one zero. -/
def signed (x : Binary64) : Int :=
  if x.negative then -(x.magnitude : Int) else x.magnitude

/-- Place of a double on a scale without ties: undefined values with a sign, negative values from
large to small, negative zero, zero, positive values, and last the undefined values without one. -/
def position (x : Binary64) : Int :=
  if x.negative then -1 - (x.magnitude : Int) else x.magnitude

instance : LT Binary64 where
  lt x y := x.isNaN = false ∧ y.isNaN = false ∧ x.signed < y.signed

instance : LE Binary64 where
  le x y := x.isNaN = false ∧ y.isNaN = false ∧ x.signed ≤ y.signed

instance : DecidableLT Binary64 := fun x y =>
  inferInstanceAs (Decidable (x.isNaN = false ∧ y.isNaN = false ∧ x.signed < y.signed))

instance : DecidableLE Binary64 := fun x y =>
  inferInstanceAs (Decidable (x.isNaN = false ∧ y.isNaN = false ∧ x.signed ≤ y.signed))

/-- Equality of numbers: both zeros are equal, and an undefined value is not equal to itself. -/
instance : BEq Binary64 where
  beq x y := x ≤ y ∧ y ≤ x

def toFloat (x : Binary64) : Float :=
  .ofBits x.bits

/-- The double of a result. -/
def ofFloat (x : Float) : Binary64 :=
  if x.isNaN then invalid else ⟨x.toBits⟩

def ofNat (n : Nat) : Binary64 :=
  ofFloat (.ofNat n)

/-- What an operation makes of an undefined operand. -/
def quieted (x : Binary64) : Binary64 :=
  ⟨x.bits ||| quietBit⟩

/-- Performs an operation on a number. -/
def map (operation : Float → Float) (x : Binary64) : Binary64 :=
  if x.isNaN then x.quieted else ofFloat (operation x.toFloat)

/-- Performs an operation on two numbers.  An undefined operand is handed on, the first one if there
are two. -/
def combine (operation : Float → Float → Float) (x y : Binary64) : Binary64 :=
  if x.isNaN then x.quieted
  else if y.isNaN then y.quieted
  else ofFloat (operation x.toFloat y.toFloat)

/-- Changes the sign, also that of an undefined value. -/
def neg (x : Binary64) : Binary64 :=
  ⟨x.bits ^^^ signBit⟩

/-- Removes the sign, also that of an undefined value. -/
def abs (x : Binary64) : Binary64 :=
  ⟨x.bits % signBit⟩

/-- Whole part as a natural number below `2 ^ 64`. -/
def truncate (x : Binary64) : Nat :=
  x.toFloat.toUInt64.toNat

/-- Doubles of this size and above are whole. -/
def allWhole : Binary64 :=
  ofNat 4503599627370496

/-- Zeros keep their sign. -/
def floor (x : Binary64) : Binary64 :=
  if x.isNaN then x.quieted
  else if x.magnitude = 0 ∨ allWhole ≤ x.abs then x
  else
    let whole := x.abs.truncate
    if ¬x.negative then ofNat whole
    else if ofNat whole = x.abs then x
    else (ofNat (whole + 1)).neg

instance : Scalar Binary64 where
  zero := ⟨0⟩
  one := ofNat 1
  add := combine (· + ·)
  sub := combine (· - ·)
  mul := combine (· * ·)
  div := combine (· / ·)
  neg := neg
  natCast := ofNat
  ofScientific m s e := ofFloat (.ofScientific m s e)
  decidableLT := inferInstance
  decidableLE := inferInstance
  floor := floor
  truncate := truncate

instance : Extended Binary64 where
  infinity := infinity
  totalLe x y := x.position ≤ y.position

instance : Elementary Binary64 where
  sqrt := map .sqrt
  exp := map .exp
  pow x y := ofFloat (x.toFloat.pow y.toFloat)

end Binary64

end Archipelago
