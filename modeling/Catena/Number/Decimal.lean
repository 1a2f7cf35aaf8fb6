/-!
# Decimal literals

A decimal literal is an optional sign, digits with an optional point among them (at least one digit
in all), and an optional exponent. `Decimal.parse?` accepts exactly these, and `Decimal.toFloat`
rounds the decimal to the nearest double, a half to the even one.
-/

namespace Catena

/-- The number `± digits · 10^exponent`. -/
structure Decimal where
  negative : Bool
  digits : Nat
  exponent : Int
  deriving DecidableEq

namespace Decimal

/-- The number written by decimal digits, most significant first. -/
def ofDigits (ds : List Char) : Nat := ds.foldl (fun n d => 10 * n + (d.toNat - '0'.toNat)) 0

/-- Splits off a leading sign; the flag is set for a minus. -/
def splitSign : List Char → Bool × List Char
  | '-' :: cs => (true, cs)
  | '+' :: cs => (false, cs)
  | cs => (false, cs)

/-- The exponent that the text after the digits writes: none at all counts as zero. -/
def parseExponent? : List Char → Option Int
  | [] => some 0
  | c :: cs =>
    if c = 'e' ∨ c = 'E' then
      let (negative, ds) := splitSign cs
      if ds.isEmpty || !ds.all Char.isDigit then none
      else some (if negative then -(ofDigits ds : Int) else ofDigits ds)
    else none

/-- The digits after the point, and what follows them. Without a point there are none. -/
def splitFraction : List Char → List Char × List Char
  | '.' :: cs => (cs.takeWhile Char.isDigit, cs.dropWhile Char.isDigit)
  | cs => ([], cs)

/-- The decimal that a text writes, if it writes one. -/
def parse? (text : List Char) : Option Decimal :=
  let (negative, unsigned) := splitSign text
  let whole := unsigned.takeWhile Char.isDigit
  let (fraction, rest) := splitFraction (unsigned.dropWhile Char.isDigit)
  if whole.isEmpty && fraction.isEmpty then none
  else (parseExponent? rest).map fun exponent =>
    ⟨negative, ofDigits (whole ++ fraction), exponent - fraction.length⟩

/-- The number of decimal digits of `n`. -/
def width (n : Nat) : Nat := (Nat.toDigits 10 n).length

/-- Positive infinity, what every decimal beyond the largest double rounds to. -/
def infinity : Float := Float.ofBits 0x7FF0000000000000

/-- `digits · 10^exponent` rounded to a double. The doubles lie between `10^-324` and `10^309`, so
a decimal far outside is decided by its size alone. -/
def magnitude (digits : Nat) (exponent : Int) : Float :=
  let size := exponent + width digits
  if digits = 0 ∨ size < -400 then 0
  else if 400 < size then infinity
  else Float.ofScientific digits (exponent < 0) exponent.natAbs

/-- The double nearest to the decimal. -/
def toFloat (d : Decimal) : Float :=
  let m := magnitude d.digits d.exponent
  if d.negative then -m else m

end Decimal

end Catena
