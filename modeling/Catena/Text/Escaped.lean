import Catena.Text.Hidden

/-!
# Escaped text

Text in a dump of a value's structure. Between its quotes everything that could mislead the eye is
escaped: quotes and backslashes, line ends, tabs, and every hidden character by its code point.
-/

namespace Catena.Text.Escaped

/-- A backslash, `u` and the code point in hexadecimal digits between braces. -/
def byCodePoint (c : Char) : List Char :=
  '\\' :: 'u' :: '\x7b' :: Nat.toDigits 16 c.toNat ++ ['\x7d']

/-- One character between the quotes. -/
def escapeChar (c : Char) : List Char :=
  if c = '"' then ['\\', '"']
  else if c = '\\' then ['\\', '\\']
  else if c = '\n' then ['\\', 'n']
  else if c = '\t' then ['\\', 't']
  else if c = '\r' then ['\\', 'r']
  else if c = '\x00' then ['\\', '0']
  else if isHidden c then byCodePoint c
  else [c]

/-- A text in quotes, with everything hidden made visible. -/
def inspect (s : String) : String := String.ofList ('"' :: s.toList.flatMap escapeChar ++ ['"'])

end Catena.Text.Escaped
