import Catena.Number.Decimal
import Catena.Text.Blank

/-!
# Settings

How evaluations run, and how variables of the surrounding system change it. A variable with a
value that makes no sense is ignored.
-/

namespace Catena

/-- The settings of evaluations. -/
structure Settings where
  /-- Whether a word that nothing binds is an error. -/
  strictWords : Bool := false
  /-- The most turns that an evaluation may take. -/
  maxTurns : Option Nat := none
  deriving DecidableEq, Inhabited

namespace Settings

/-- The largest number that a limit can be. -/
def maxLimit : Nat := UInt64.size - 1

/-- A limit as it is written in variables and flags: decimal digits, possibly after a plus. -/
def parseLimit? (text : String) : Option Nat :=
  let digits := match text.toList with
    | '+' :: rest => rest
    | cs => cs
  if digits.isEmpty || !digits.all Char.isDigit then none
  else
    let n := Decimal.ofDigits digits
    if n ≤ maxLimit then some n else none

/-- A truth value as it is written in variables. -/
def parseFlag? (text : String) : Option Bool :=
  match (Text.trim text).map Char.toLower with
  | "1" | "true" | "yes" | "on" => some true
  | "0" | "false" | "no" | "off" => some false
  | _ => none

/-- The settings after the variables have had their say. -/
def withVariables (s : Settings) (lookup : String → Option String) : Settings :=
  let s := match (lookup "SLANG_STRICT_WORDS").bind parseFlag? with
    | some flag => { s with strictWords := flag }
    | none => s
  match (lookup "SLANG_MAX_TURNS").bind parseLimit? with
  | some (n + 1) => { s with maxTurns := some (n + 1) }
  | _ => s

end Settings

end Catena
