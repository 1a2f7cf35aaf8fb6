import Catena.Number.Literal
import Catena.Program.Datum
import Catena.Program.Token

/-!
# Reading programs

`Program.read` turns a source text into a program: tokens become data, and brackets become the
nesting of blocks. A closing bracket without partner is blamed where it stands, an open block on
the innermost bracket still open.
-/

namespace Catena

/-- The datum that a word token writes. -/
def Datum.ofWord (chars : List Char) : Datum Unit :=
  if chars = ['t', 'r', 'u', 'e'] then .bool true
  else if chars = ['f', 'a', 'l', 's', 'e'] then .bool false
  else if chars = ['n', 'i', 'l'] then .nil
  else match chars with
    | ':' :: c :: cs => .symbol (String.ofList (c :: cs))
    | _ => match Number.literal? chars with
      | some x => .number x
      | none => .word (String.ofList chars)

/-- The datum that the characters between two quotes write. -/
def Datum.ofString (raw : List Char) : Datum Unit :=
  .text (String.ofList (Text.Quoted.decode raw))

namespace Program

/-- A block whose closing bracket is still to come: where it opened, and the data before it in the
enclosing block, the last one first. -/
structure Open where
  start : Position
  before : List (Datum Unit)

/-- Assembles tokens into data. `enclosing` holds the open blocks, the innermost first, and `done`
the data of the innermost one so far, the last one first. -/
def assemble (enclosing : List Open) (done : List (Datum Unit)) : List Token → Except Error Program
  | [] => match enclosing with
    | [] => .ok done.reverse
    | block :: _ => .error (.parse block.start .unclosedBlock)
  | .opening start :: tokens => assemble (⟨start, done⟩ :: enclosing) [] tokens
  | .closing start :: tokens => match enclosing with
    | [] => .error (.parse start .unbalancedClose)
    | block :: outer => assemble outer (.block () done.reverse :: block.before) tokens
  | .string _ raw :: tokens => assemble enclosing (Datum.ofString raw :: done) tokens
  | .word _ chars :: tokens => assemble enclosing (Datum.ofWord chars :: done) tokens

/-- The program that a source text writes. -/
def read (source : String) : Except Error Program := do
  assemble [] [] (← Token.scan source)

/-- The text of a program: its data in order, one space between two. -/
def display (program : Program) : String := " ".intercalate (program.map Datum.display)

end Program

end Catena
