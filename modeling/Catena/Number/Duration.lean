import Catena.Number.Binary

/-!
# Spans of time

A delay is given in milliseconds as a number and kept as whole nanoseconds, rounded to the nearest,
a half to the even one. A span of time is shorter than `2^64` seconds.
-/

namespace Catena.Number

/-- The nanoseconds of a second. -/
def nanosPerSecond : Nat := 1000000000

/-- `num / den` rounded to a whole number, a half to the even one. -/
def roundHalfEven (num den : Nat) : Nat :=
  let below := num / den
  let rest := 2 * (num % den)
  if rest < den ∨ (rest = den ∧ below % 2 = 0) then below else below + 1

/-- The span of a number of seconds in nanoseconds, unless it is too long. -/
def nanoseconds? (seconds : Float) : Option Nat :=
  match Binary.ofFloat seconds with
  | .finite _ mantissa exponent =>
    let (num, den) := Binary.ratio mantissa exponent
    if num / den < UInt64.size then some (roundHalfEven (num * nanosPerSecond) den) else none
  | _ => none

end Catena.Number
