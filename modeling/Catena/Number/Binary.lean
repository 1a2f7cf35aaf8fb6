/-!
# Doubles as exact binary fractions

`Binary.ofFloat` reads the 64 bits of a double: a finite one is a sign and `mantissa · 2^exponent`.
Everything that asks for the exact value of a number (is it whole, what is its floor, which
decimals round to it) starts from here.
-/

namespace Catena

/-- What the bits of a double say. -/
inductive Binary where
  /-- No number at all. -/
  | nan
  /-- An infinity and its sign. -/
  | infinite (negative : Bool)
  /-- `± mantissa · 2^exponent`. -/
  | finite (negative : Bool) (mantissa : Nat) (exponent : Int)
  deriving DecidableEq

namespace Binary

/-- The exact content of a double. The exponents of subnormal numbers are all `-1074`. -/
def ofFloat (x : Float) : Binary :=
  let bits := x.toBits.toNat
  let negative := bits / Nat.pow 2 63 == 1
  let biased := bits / Nat.pow 2 52 % Nat.pow 2 11
  let fraction := bits % Nat.pow 2 52
  if biased = 2047 then
    if fraction = 0 then infinite negative else nan
  else if biased = 0 then finite negative fraction (-1074)
  else finite negative (fraction + Nat.pow 2 52) (Int.ofNat biased - 1075)

/-- `mantissa · 2^exponent` as a numerator and a denominator. -/
def ratio (mantissa : Nat) (exponent : Int) : Nat × Nat :=
  (mantissa * Nat.pow 2 exponent.toNat, Nat.pow 2 (-exponent).toNat)

/-- The part before the point of `mantissa · 2^exponent`. -/
def wholePart (mantissa : Nat) (exponent : Int) : Nat :=
  mantissa * Nat.pow 2 exponent.toNat / Nat.pow 2 (-exponent).toNat

/-- Whether nothing follows the point in `mantissa · 2^exponent`. -/
def isWhole (mantissa : Nat) (exponent : Int) : Bool :=
  mantissa % Nat.pow 2 (-exponent).toNat == 0

end Binary

namespace Number

/-- The largest whole number that is not above `x`; infinities and the undefined value are kept.
Below `2^53` whole numbers are doubles, and a double that is not whole lies below `2^53`. -/
def floor (x : Float) : Float :=
  match Binary.ofFloat x with
  | .finite negative mantissa exponent =>
    if Binary.isWhole mantissa exponent then x
    else
      let whole := Binary.wholePart mantissa exponent
      if negative then -(Float.ofNat (whole + 1)) else Float.ofNat whole
  | _ => x

/-- The whole number that `x` is, if it is one and not below zero. -/
def toWhole? (x : Float) : Option Nat :=
  match Binary.ofFloat x with
  | .finite negative mantissa exponent =>
    if Binary.isWhole mantissa exponent && (!negative || mantissa == 0) then
      some (Binary.wholePart mantissa exponent)
    else none
  | _ => none

end Number

end Catena
