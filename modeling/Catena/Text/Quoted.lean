/-!
# Quoted text

Between double quotes a backslash protects the character after it: `\n`, `\t` and `\r` stand for a
line feed, a tab and a carriage return, and any other protected character stands for itself.
`encode` protects exactly the five characters that need it, and `decode` undoes it
(`decode_encode`).
-/

namespace Catena.Text.Quoted

/-- One character as it is written between quotes. -/
def encodeChar (c : Char) : List Char :=
  if c = '"' then ['\\', '"']
  else if c = '\\' then ['\\', '\\']
  else if c = '\n' then ['\\', 'n']
  else if c = '\t' then ['\\', 't']
  else if c = '\r' then ['\\', 'r']
  else [c]

/-- The characters of a text as they are written between quotes. -/
def encode (cs : List Char) : List Char := cs.flatMap encodeChar

/-- What a protected character stands for. -/
def unprotect (c : Char) : Char :=
  if c = 'n' then '\n' else if c = 't' then '\t' else if c = 'r' then '\r' else c

/-- The text written by the characters between two quotes. A backslash at the very end protects
nothing and stands for itself. -/
def decode : List Char → List Char
  | [] => []
  | [c] => [c]
  | c :: d :: rest => if c = '\\' then unprotect d :: decode rest else c :: decode (d :: rest)

theorem decode_cons {c : Char} (h : c ≠ '\\') (cs : List Char) :
    decode (c :: cs) = c :: decode cs := by
  cases cs <;> simp [decode, h]

theorem decode_encode (cs : List Char) : decode (encode cs) = cs := by
  induction cs with
  | nil => rfl
  | cons c cs ih =>
    simp only [encode, List.flatMap_cons] at ih ⊢
    by_cases h : c = '"' ∨ c = '\\' ∨ c = '\n' ∨ c = '\t' ∨ c = '\r'
    · rcases h with rfl | rfl | rfl | rfl | rfl <;> simp [encodeChar, decode, unprotect, ih]
    · simp only [not_or] at h
      simp [encodeChar, h, decode_cons, ih]

/-- A text in its quotes. -/
def quote (s : String) : String := String.ofList ('"' :: encode s.toList ++ ['"'])

end Catena.Text.Quoted
