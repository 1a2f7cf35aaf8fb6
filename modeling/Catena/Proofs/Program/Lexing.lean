import Catena.Program.Reading
import Mathlib.Data.List.Basic

/-!
# Reading in pieces

The lexer reads one character after the other and keeps in its state all that the characters read so
far leave open. So a text can be read in pieces (`Lexer.feed_append`): what a piece amounts to is the
tokens that it completes and the state after it, and only at the end of the text the last token is
closed (`Lexer.scan_eq`). Places are counted along, and are always those of the text read so far
(`Position.after`).
-/

namespace Catena

/-- The place after `before`: how many lines end in it, and how many characters follow the last of
these ends. -/
def Position.after (before : List Char) : Position :=
  ⟨before.count '\n', (before.reverse.takeWhile (· ≠ '\n')).length⟩

theorem Position.after_concat (before : List Char) (c : Char) :
    after (before ++ [c]) = (after before).advance c := by
  by_cases h : c = '\n' <;> simp [after, advance, h, List.count_append]

namespace Lexer

/-- The tokens that the characters of a piece complete, and what is open after it. -/
def feed (lexer : Lexer) (before : List Char) : List Char → List Token × Lexer
  | [] => ([], lexer)
  | c :: cs =>
    let (tokens, next) := lexer.step (.after before) c
    let (more, last) := feed next (before ++ [c]) cs
    (tokens ++ more, last)

@[simp] theorem feed_nil (lexer : Lexer) (before : List Char) : lexer.feed before [] = ([], lexer) :=
  rfl

theorem feed_cons (lexer : Lexer) (before : List Char) (c : Char) (cs : List Char) :
    lexer.feed before (c :: cs) =
      ((lexer.step (.after before) c).1 ++
          ((lexer.step (.after before) c).2.feed (before ++ [c]) cs).1,
        ((lexer.step (.after before) c).2.feed (before ++ [c]) cs).2) := rfl

/-- A text is read piece by piece. -/
theorem feed_append (lexer : Lexer) (before cs ds : List Char) :
    lexer.feed before (cs ++ ds) =
      ((lexer.feed before cs).1 ++ ((lexer.feed before cs).2.feed (before ++ cs) ds).1,
        ((lexer.feed before cs).2.feed (before ++ cs) ds).2) := by
  induction cs generalizing lexer before with
  | nil => simp
  | cons c cs ih => simp [feed_cons, ih]

/-- The tokens of a text are those that its characters complete, and the one that its end does. -/
theorem scan_eq (lexer : Lexer) (before cs : List Char) :
    lexer.scan (.after before) cs =
      (lexer.feed before cs).2.finish.map ((lexer.feed before cs).1 ++ ·) := by
  induction cs generalizing lexer before with
  | nil => cases h : lexer.finish <;> simp [scan, h, Except.map]
  | cons c cs ih =>
    have hplace : (Position.after before).advance c = .after (before ++ [c]) :=
      (Position.after_concat before c).symm
    simp only [scan, hplace, ih, feed_cons]
    cases ((lexer.step (.after before) c).2.feed (before ++ [c]) cs).2.finish <;>
      simp [Except.map, List.append_assoc]

end Lexer

theorem Token.scan_eq (source : String) :
    Token.scan source =
      (Lexer.between.feed [] source.toList).2.finish.map
        ((Lexer.between.feed [] source.toList).1 ++ ·) :=
  Lexer.scan_eq .between [] source.toList

end Catena
