import Catena.Number.Decimal

/-!
# Number literals

A text can mean a double as a decimal, or as the name of an infinity or of the undefined value
(`Number.ofText?`). Programs write numbers as decimals only: a literal has to look like one from its
first characters (`Number.looksDecimal`), which no name does, and its text has to mean a double.
-/

namespace Catena.Number

/-- The double that is no number. -/
def undefined : Float := Float.ofBits 0x7FF8000000000000

/-- The double that has a name, in letters of either case. -/
def named? (name : List Char) : Option Float :=
  let name := name.map Char.toLower
  if name = ['i', 'n', 'f'] ∨ name = ['i', 'n', 'f', 'i', 'n', 'i', 't', 'y'] then
    some Decimal.infinity
  else if name = ['n', 'a', 'n'] then some undefined
  else none

/-- The double that a text means: the one nearest to a decimal, or the one that has a name, which
may have a sign. -/
def ofText? (text : List Char) : Option Float :=
  match Decimal.parse? text with
  | some d => some d.toFloat
  | none =>
    let (negative, name) := Decimal.splitSign text
    (named? name).map fun x => if negative then -x else x

/-- Whether a text begins with a digit. -/
def startsWithDigit : List Char → Bool
  | c :: _ => c.isDigit
  | [] => false

/-- A text without a point at its beginning. -/
def skipPoint : List Char → List Char
  | '.' :: cs => cs
  | cs => cs

/-- Whether a text begins as decimals do: with a digit, or with a digit behind a sign or a point,
where one more point may stand between them. -/
def looksDecimal : List Char → Bool
  | [] => false
  | c :: cs =>
    if c.isDigit then true
    else if c = '-' ∨ c = '+' ∨ c = '.' then startsWithDigit (skipPoint cs)
    else false

/-- The number that a literal writes. -/
def literal? (text : List Char) : Option Float :=
  if looksDecimal text then ofText? text else none

end Catena.Number
