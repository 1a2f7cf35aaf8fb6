import Catena.Number.Binary
import Catena.Number.Decimal

/-!
# The shortest decimal of a double

Among the decimals that round to a given positive double, `Decimal.shortest` picks one with the
fewest digits, and of those the nearest to the double; halfway between two it takes the larger.

For one digit, two digits and so on, the double lies between two neighbours on the grid of
decimals with that many digits. If any decimal of the grid rounds to the double then one of
these two does, so the first grid on which a neighbour reads back decides. Seventeen digits are
always enough.
-/

namespace Catena.Decimal

/-- The exponent `k` with `10^(k-1) ≤ num / den < 10^k`. -/
def scale (num den : Nat) : Int :=
  let gap : Int := width num - width den
  if num * Nat.pow 10 (-gap).toNat < den * Nat.pow 10 gap.toNat then gap else gap + 1

/-- `num / den` in units of `10^unit`: the whole part, the remainder and what it is a remainder
of. -/
def onGrid (num den : Nat) (unit : Int) : Nat × Nat × Nat :=
  let n := num * Nat.pow 10 (-unit).toNat
  let d := den * Nat.pow 10 unit.toNat
  (n / d, n % d, d)

/-- Whether `digits · 10^unit` rounds to `x`. -/
def readsBack (x : Float) (digits : Nat) (unit : Int) : Bool :=
  (magnitude digits unit).toBits == x.toBits

/-- The digits to write for `x = num / den` on the grid of `10^unit`, if one of its two
neighbours there reads back. -/
def digitsOn? (x : Float) (num den : Nat) (unit : Int) : Option Nat :=
  let (below, rest, whole) := onGrid num den unit
  let above := if rest = 0 then below else below + 1
  match readsBack x below unit, readsBack x above unit with
  | true, true => some (if 2 * rest < whole then below else above)
  | true, false => some below
  | false, true => some above
  | false, false => none

/-- Moves trailing zeros of the digits into the exponent. -/
def normalize : Nat → Nat → Int → Nat × Int
  | 0, digits, unit => (digits, unit)
  | fuel + 1, digits, unit =>
    if digits % 10 = 0 ∧ digits ≠ 0 then normalize fuel (digits / 10) (unit + 1)
    else (digits, unit)

/-- The shortest digits and their exponent for the positive double `x = mantissa · 2^exponent`. -/
def shortest (x : Float) (mantissa : Nat) (exponent : Int) : Nat × Int :=
  let (num, den) := Binary.ratio mantissa exponent
  let top := scale num den
  let found := (List.range 17).findSome? fun (n : Nat) =>
    let unit := top - (n + 1)
    (digitsOn? x num den unit).map fun digits => normalize 17 digits unit
  found.getD ((onGrid num den (top - 17)).1, top - 17)

end Catena.Decimal
