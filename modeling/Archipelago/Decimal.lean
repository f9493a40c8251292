namespace Archipelago

/-- The number `digits * 10 ^ exponent`. -/
structure Decimal where
  digits : Nat
  exponent : Int
deriving DecidableEq

namespace Decimal

/-- Decimal digits of a natural number, without leading zeros. -/
def numeral (n : Nat) : List Char :=
  Nat.toDigits 10 n

/-- Digits padded on the left to a width. -/
def padded (width n : Nat) : List Char :=
  let digits := numeral n
  List.replicate (width - digits.length) '0' ++ digits

/-- Whole and fractional digits.  The whole part is never empty, the fractional part may be. -/
def split (d : Decimal) : List Char × List Char :=
  match d.exponent with
  | .ofNat zeros => (numeral d.digits ++ List.replicate zeros '0', [])
  | .negSucc below =>
    let places := below + 1
    let digits := padded (places + 1) d.digits
    (digits.take (digits.length - places), digits.drop (digits.length - places))

/-- The exponent of the smallest power of ten that lies above the number. -/
def order (d : Decimal) : Int :=
  (numeral d.digits).length + d.exponent

/-- Without an exponent, and without a point where nothing follows it. -/
def positional (d : Decimal) : List Char :=
  match d.split with
  | (whole, []) => whole
  | (whole, fraction) => whole ++ '.' :: fraction

/-- Without an exponent, and with at least one digit after the point. -/
def pointed (d : Decimal) : List Char :=
  match d.split with
  | (whole, []) => whole ++ ['.', '0']
  | (whole, fraction) => whole ++ '.' :: fraction

/-- One digit before the point, and the power of ten after an `e`. -/
def scientific (d : Decimal) : List Char :=
  let power := (toString (d.order - 1)).toList
  match numeral d.digits with
  | first :: second :: rest => first :: '.' :: second :: rest ++ 'e' :: power
  | digits => digits ++ 'e' :: power

/-- Quotient rounded to the nearest natural number, an exact half to the even neighbour. -/
def roundedQuotient (num den : Nat) : Nat :=
  let low := num / den
  let rest := 2 * (num % den)
  if rest < den then low
  else if rest = den then low + low % 2
  else low + 1

end Decimal

end Archipelago
