import Catena.Number.Shortest

/-!
# The text of a number

Numbers are written with the shortest digits that read back as the same double.

* `Number.positional` never uses an exponent, whatever the size.
* `Number.display` is the same, but a whole number below `10^15` is written as an integer, so that
  negative zero loses its sign.
* `Number.inspect` always shows a point, and changes to an exponent from `10^16` on and below
  `10^-4`.
-/

namespace Catena.Number

/-- Decimal digits with a point or zeros put in, so that they stand for `digits · 10^exponent`. -/
def place (digits : Nat) (exponent : Int) : String :=
  let ds := Nat.toDigits 10 digits
  if 0 ≤ exponent then String.ofList (ds ++ List.replicate exponent.toNat '0')
  else
    let places := exponent.natAbs
    if places < ds.length then
      String.ofList (ds.take (ds.length - places) ++ '.' :: ds.drop (ds.length - places))
    else String.ofList ('0' :: '.' :: List.replicate (places - ds.length) '0' ++ ds)

/-- The sign in front of a number. -/
def sign (negative : Bool) : String := if negative then "-" else ""

/-- Writes a double, given how to write the digits and exponent of a positive one and what to
write for zero. -/
def write (zero : String) (layout : Nat → Int → String) (x : Float) : String :=
  match Binary.ofFloat x with
  | .nan => "NaN"
  | .infinite negative => sign negative ++ "inf"
  | .finite negative mantissa exponent =>
    if mantissa = 0 then sign negative ++ zero
    else
      let (digits, unit) := Decimal.shortest (Float.abs x) mantissa exponent
      sign negative ++ layout digits unit

/-- All digits, no exponent. -/
def positional (x : Float) : String := write "0" place x

/-- Whole numbers from here on are written from their shortest digits. -/
def integerBound : Nat := Nat.pow 10 15

/-- The text of a number as a value of the language. -/
def display (x : Float) : String :=
  match Binary.ofFloat x with
  | .finite negative mantissa exponent =>
    let whole := Binary.wholePart mantissa exponent
    if Binary.isWhole mantissa exponent && whole < integerBound then
      sign (negative && whole != 0) ++ String.ofList (Nat.toDigits 10 whole)
    else positional x
  | _ => positional x

/-- The digits with a point and an exponent, or, where that is not too long, in place. -/
def inspectLayout (digits : Nat) (unit : Int) : String :=
  let ds := Nat.toDigits 10 digits
  let exponent := unit + ds.length - 1
  if -4 ≤ exponent ∧ exponent < 16 then
    if 0 ≤ unit then place digits unit ++ ".0" else place digits unit
  else
    let fraction := match ds.tail with
      | [] => ""
      | rest => String.ofList ('.' :: rest)
    String.ofList (ds.take 1) ++ fraction ++ "e" ++ toString exponent

/-- The text of a number in a dump of its structure. -/
def inspect (x : Float) : String := write "0.0" inspectLayout x

end Catena.Number
