import Catena.Settings.Basic

/-!
# Settings files

A settings file has lines of the form `key = value`, blank lines, and comments from a `#` to the
end of the line. A key may stand in quotes. There are two keys, each given at most once:
`strict_words`, a truth value, and `max_turns`, an integer that is not negative. Anything else
makes the whole file invalid.
-/

namespace Catena

/-- What a settings file says. -/
structure SettingsFile where
  strictWords : Option Bool := none
  maxTurns : Option Nat := none
  deriving DecidableEq, Inhabited

namespace SettingsFile

/-- Spaces and tabs are the only blanks inside a line. -/
def isSpace (c : Char) : Bool := c = ' ' || c = '\t'

/-- The characters without blanks at the two ends. -/
def strip (cs : List Char) : List Char :=
  ((cs.dropWhile isSpace).reverse.dropWhile isSpace).reverse

/-- Whether a character may stand in a comment. -/
def isCommentChar (c : Char) : Bool :=
  c = '\t' || (0x20 ≤ c.toNat && c.toNat ≤ 0x7E) || 0x80 ≤ c.toNat

/-! ## Integers -/

/-- The value of a digit in bases up to sixteen. -/
def digit? (base : Nat) (c : Char) : Option Nat :=
  let value :=
    if c.isDigit then some (c.toNat - '0'.toNat)
    else if 'a' ≤ c ∧ c ≤ 'f' then some (c.toNat - 'a'.toNat + 10)
    else if 'A' ≤ c ∧ c ≤ 'F' then some (c.toNat - 'A'.toNat + 10)
    else none
  value.filter (· < base)

/-- The number that digits write, with `acc` what the digits before them wrote. An underscore may
stand between two digits; the flag says whether a digit has to come next. -/
def digits? (base : Nat) : List Char → (acc : Nat) → (expecting : Bool) → Option Nat
  | [], acc, expecting => if expecting then none else some acc
  | c :: cs, acc, expecting =>
    if c = '_' then
      if expecting then none else digits? base cs acc true
    else match digit? base c with
      | some d => digits? base cs (base * acc + d) false
      | none => none

/-- An integer of a settings file: decimal without leading zeros and with an optional sign, or
hexadecimal, octal or binary after its mark. -/
def magnitude? : List Char → Option Nat
  | '0' :: 'x' :: cs => digits? 16 cs 0 true
  | '0' :: 'o' :: cs => digits? 8 cs 0 true
  | '0' :: 'b' :: cs => digits? 2 cs 0 true
  | '+' :: cs => plain? cs
  | '-' :: cs => (plain? cs).filter (· = 0)
  | cs => plain? cs
where
  /-- Decimal digits; a zero in front stands alone. -/
  plain? : List Char → Option Nat
    | ['0'] => some 0
    | '0' :: _ => none
    | cs => digits? 10 cs 0 true

/-- Integers of a settings file end here. -/
def maxInteger : Nat := UInt64.size / 2 - 1

/-- An integer that is not negative. -/
def integer? (cs : List Char) : Option Nat := (magnitude? cs).filter (· ≤ maxInteger)

/-- A truth value. -/
def flag? (cs : List Char) : Option Bool :=
  if cs = "true".toList then some true else if cs = "false".toList then some false else none

/-! ## Lines -/

/-- The character that a letter stands for after a backslash. -/
def escaped? : Char → Option Char
  | 'b' => some '\x08'
  | 't' => some '\t'
  | 'n' => some '\n'
  | 'f' => some '\x0c'
  | 'r' => some '\r'
  | '"' => some '"'
  | '\\' => some '\\'
  | _ => none

/-- The character whose number hexadecimal digits write. -/
def scalar? (ds : List Char) : Option Char := do
  let values ← ds.mapM (digit? 16)
  let n := values.foldl (16 * · + ·) 0
  if n.isValidChar then some (Char.ofNat n) else none

/-- The text between double quotes. A backslash begins the name of a character: one letter, or the
number of the character in four digits after `u` or eight after `U`. -/
def unescape? : List Char → Option (List Char)
  | [] => some []
  | '\\' :: 'u' :: a :: b :: c :: d :: rest =>
    return (← scalar? [a, b, c, d]) :: (← unescape? rest)
  | '\\' :: 'U' :: a :: b :: c :: d :: e :: f :: g :: h :: rest =>
    return (← scalar? [a, b, c, d, e, f, g, h]) :: (← unescape? rest)
  | '\\' :: c :: rest => return (← escaped? c) :: (← unescape? rest)
  | c :: rest => if c = '\\' ∨ c = '"' then none else return c :: (← unescape? rest)

/-- The key without the quotes it may stand in. Between single quotes it stands as it is. -/
def unquote? : List Char → Option (List Char)
  | '"' :: rest => if rest.getLast? = some '"' then unescape? rest.dropLast else none
  | '\'' :: rest => if rest.getLast? = some '\'' then some rest.dropLast else none
  | cs => some cs

/-- Adds a setting, unless it makes no sense or is there already. -/
def assign? (file : SettingsFile) (key value : List Char) : Option SettingsFile :=
  if key = "strict_words".toList ∧ file.strictWords = none then
    (flag? value).map fun flag => { file with strictWords := some flag }
  else if key = "max_turns".toList ∧ file.maxTurns = none then
    (integer? value).map fun n => { file with maxTurns := some n }
  else none

/-- Adds what one line says. -/
def addLine? (file : SettingsFile) (line : List Char) : Option SettingsFile :=
  let content := strip (line.takeWhile (· ≠ '#'))
  let comment := (line.dropWhile (· ≠ '#'))
  if !comment.all isCommentChar then none
  else if content.isEmpty then some file
  else
    let key := content.takeWhile (· ≠ '=')
    match content.dropWhile (· ≠ '=') with
    | [] => none
    | _ :: value => do file.assign? (← unquote? (strip key)) (strip value)

/-- The lines of a text. A carriage return belongs to the line end it stands before. -/
def lines (cs : List Char) : List (List Char) :=
  let (current, done) := cs.foldl (fun (current, done) c =>
    if c = '\n' then
      ([], (match current with | '\r' :: rest => rest | _ => current).reverse :: done)
    else (c :: current, done)) (([] : List Char), ([] : List (List Char)))
  (current.reverse :: done).reverse

/-- Reads a settings file. A mark of the byte order in front is skipped. -/
def parse? (text : String) : Option SettingsFile :=
  let cs := match text.toList with
    | '\ufeff' :: rest => rest
    | cs => cs
  (lines cs).foldlM addLine? {}

/-- The settings after the file has had its say; a limit of zero turns means none. -/
def overlay (file : SettingsFile) (s : Settings) : Settings :=
  { strictWords := file.strictWords.getD s.strictWords
    maxTurns := match file.maxTurns with
      | some 0 => none
      | some n => some n
      | none => s.maxTurns }

/-- The file as settings by themselves; a limit of zero turns is kept. -/
def toSettings (file : SettingsFile) : Settings :=
  { strictWords := file.strictWords.getD false, maxTurns := file.maxTurns }

end SettingsFile

end Catena
