import Catena.Error
import Catena.Text.Blank

/-!
# Tokens

A source text is cut into brackets, strings and words by a machine that reads one character at a
time (`Lexer.step`):

* a double quote ends the word before it and opens a string, in which a backslash protects the
  next character and an unprotected quote closes the string;
* a `#` where no word is in progress starts a comment, which the end of the line closes;
* a bracket ends the word before it and is a token of its own;
* a blank ends the word before it;
* any other character belongs to a word.

Only a string that is still open at the end of the text is an error (`Token.scan`).
-/

namespace Catena

/-- A token and the place where it starts. -/
inductive Token where
  /-- An opening bracket. -/
  | opening (start : Position)
  /-- A closing bracket. -/
  | closing (start : Position)
  /-- The characters between two quotes, still protected. -/
  | string (start : Position) (raw : List Char)
  /-- Anything else: a literal, a symbol or a word. -/
  | word (start : Position) (chars : List Char)
  deriving DecidableEq

/-- What the characters read so far leave open. -/
inductive Lexer where
  /-- Nothing. -/
  | between
  /-- A word, with its characters so far, the last one first. -/
  | inWord (start : Position) (taken : List Char)
  /-- A string, with its characters so far, the last one first; the flag is set after a backslash
  that protects the next character. -/
  | inString (start : Position) (taken : List Char) (escaped : Bool)
  /-- A comment. -/
  | inComment
  deriving DecidableEq

namespace Lexer

/-- The tokens that end where the next character is no part of them. -/
def flush : Lexer → List Token
  | inWord start taken => [.word start taken.reverse]
  | _ => []

/-- Whether a `#` here belongs to a word. -/
def isInWord : Lexer → Bool
  | inWord _ _ => true
  | _ => false

/-- A character outside strings and comments. -/
def stepOutside (lexer : Lexer) (here : Position) (c : Char) : List Token × Lexer :=
  if c = '"' then (lexer.flush, inString here [] false)
  else if c = '#' ∧ ¬lexer.isInWord then ([], inComment)
  else if c = '[' then (lexer.flush ++ [.opening here], between)
  else if c = ']' then (lexer.flush ++ [.closing here], between)
  else if Text.isBlank c then (lexer.flush, between)
  else match lexer with
    | inWord start taken => ([], inWord start (c :: taken))
    | _ => ([], inWord here [c])

/-- Reads the character `c` at `here`: the tokens it completes, and what is open after it. -/
def step (lexer : Lexer) (here : Position) (c : Char) : List Token × Lexer :=
  match lexer with
  | inComment => ([], if c = '\n' then between else inComment)
  | inString start taken escaped =>
    if c = '"' ∧ ¬escaped then ([.string start taken.reverse], between)
    else ([], inString start (c :: taken) (c = '\\' ∧ ¬escaped))
  | between | inWord _ _ => lexer.stepOutside here c

/-- The end of the text. -/
def finish : Lexer → Except Error (List Token)
  | inString start _ _ => .error (.parse start .unclosedString)
  | lexer => .ok lexer.flush

/-- The tokens of the characters that follow, with `here` the place of the first one. -/
def scan (lexer : Lexer) (here : Position) : List Char → Except Error (List Token)
  | [] => lexer.finish
  | c :: cs =>
    let (tokens, next) := lexer.step here c
    (scan next (here.advance c) cs).map (tokens ++ ·)

end Lexer

/-- The tokens of a source text. -/
def Token.scan (source : String) : Except Error (List Token) :=
  Lexer.between.scan .start source.toList

end Catena
