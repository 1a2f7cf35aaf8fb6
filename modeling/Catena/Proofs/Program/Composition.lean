import Catena.Proofs.Program.Lexing

/-!
# Reading one text below another

A text that reads as a program leaves nothing open at its end but a word or a comment, and a line
feed closes both. So what stands below it is read as if it stood alone: its data follow those of the
text above, and what is wrong with it is wrong in the same way, as many lines further down as the
text above takes (`Program.read_below`).

Neither the lexer nor the assembler looks at the places that it carries: moving them all down moves
the places of the result and changes nothing else (`Lexer.scan_down`, `Program.assemble_down`).
-/

namespace Catena

/-! ## Places further down -/

/-- The place `n` lines further down. -/
def Position.down (n : Nat) (here : Position) : Position := ⟨here.line + n, here.column⟩

theorem Position.advance_down (n : Nat) (here : Position) (c : Char) :
    (here.down n).advance c = (here.advance c).down n := by
  by_cases h : c = '\n'
  · simp [advance, down, h, Nat.add_right_comm]
  · simp [advance, down, h]

/-- The place at the start of a line is the start of the text, moved down. -/
theorem Position.after_lines (before : List Char) :
    after (before ++ ['\n']) = start.down (before.count '\n' + 1) := by
  simp [after, start, down]

/-- A token that starts `n` lines further down. -/
def Token.down (n : Nat) : Token → Token
  | opening start => opening (start.down n)
  | closing start => closing (start.down n)
  | string start raw => string (start.down n) raw
  | word start chars => word (start.down n) chars

/-- A fault in a text, `n` lines further down; other failures have no place. -/
def Error.down (n : Nat) : Error → Error
  | parse position fault => parse (position.down n) fault
  | failure => failure

namespace Lexer

/-- What is open started `n` lines further down. -/
def down (n : Nat) : Lexer → Lexer
  | between => between
  | inWord start taken => inWord (start.down n) taken
  | inString start taken escaped => inString (start.down n) taken escaped
  | inComment => inComment

@[simp] theorem flush_down (n : Nat) (lexer : Lexer) :
    (lexer.down n).flush = lexer.flush.map (Token.down n) := by
  cases lexer <;> simp [down, flush, Token.down]

@[simp] theorem isInWord_down (n : Nat) (lexer : Lexer) :
    (lexer.down n).isInWord = lexer.isInWord := by
  cases lexer <;> rfl

theorem finish_down (n : Nat) (lexer : Lexer) :
    (lexer.down n).finish = (lexer.finish.map (List.map (Token.down n))).mapError (Error.down n) := by
  cases lexer <;> simp [down, finish, flush, Token.down, Error.down, Except.map, Except.mapError]

theorem stepOutside_down (n : Nat) (lexer : Lexer) (here : Position) (c : Char) :
    (lexer.down n).stepOutside (here.down n) c =
      ((lexer.stepOutside here c).1.map (Token.down n), (lexer.stepOutside here c).2.down n) := by
  unfold stepOutside
  rw [flush_down, isInWord_down]
  split_ifs <;> try simp [down, Token.down]
  -- a character of a word
  cases lexer <;> simp

theorem step_down (n : Nat) (lexer : Lexer) (here : Position) (c : Char) :
    (lexer.down n).step (here.down n) c =
      ((lexer.step here c).1.map (Token.down n), (lexer.step here c).2.down n) := by
  cases lexer with
  | between => exact stepOutside_down n between here c
  | inWord start taken => exact stepOutside_down n (inWord start taken) here c
  | inString start taken escaped =>
    simp only [step, down]
    split <;> simp [Token.down]
  | inComment =>
    simp only [step, down]
    split <;> simp

/-- The tokens of a text that stands further down are its tokens, moved down. -/
theorem scan_down (n : Nat) (lexer : Lexer) (here : Position) (cs : List Char) :
    (lexer.down n).scan (here.down n) cs =
      ((lexer.scan here cs).map (List.map (Token.down n))).mapError (Error.down n) := by
  induction cs generalizing lexer here with
  | nil => exact finish_down n lexer
  | cons c cs ih =>
    simp only [scan, step_down, Position.advance_down, ih]
    cases scan (lexer.step here c).2 (here.advance c) cs <;> simp [Except.map, Except.mapError]

/-- What follows a piece is read from the state after it, at the place after it. -/
theorem scan_append (lexer : Lexer) (before cs ds : List Char) :
    lexer.scan (.after before) (cs ++ ds) =
      (scan (lexer.feed before cs).2 (.after (before ++ cs)) ds).map
        ((lexer.feed before cs).1 ++ ·) := by
  simp only [scan_eq, feed_append]
  cases finish ((lexer.feed before cs).2.feed (before ++ cs) ds).2 <;>
    simp [Except.map, List.append_assoc]

/-- A line feed ends what the end of a text would end. -/
theorem step_newline {lexer : Lexer} {tokens : List Token} (h : lexer.finish = .ok tokens)
    (here : Position) : lexer.step here '\n' = (tokens, between) := by
  have hblank : Text.isBlank '\n' = true := by decide
  cases lexer with
  | inString => cases h
  | between | inWord | inComment => cases h; simp [step, stepOutside, hblank, flush]

end Lexer

/-- The tokens of a text below another: those above, then its own. -/
theorem Token.scan_below {a : String} {tokens : List Token} (h : scan a = .ok tokens) (b : String) :
    scan (a ++ "\n" ++ b) =
      (((scan b).map (List.map (down (a.toList.count '\n' + 1)))).mapError
        (Error.down (a.toList.count '\n' + 1))).map (tokens ++ ·) := by
  obtain ⟨last, hlast, rfl⟩ : ∃ last, (Lexer.between.feed [] a.toList).2.finish = .ok last ∧
      tokens = (Lexer.between.feed [] a.toList).1 ++ last := by
    rw [scan_eq] at h
    cases hfinish : (Lexer.between.feed [] a.toList).2.finish with
    | error => rw [hfinish] at h; cases h
    | ok last => rw [hfinish] at h; cases h; exact ⟨last, rfl, rfl⟩
  have habove : Lexer.between.feed [] (a.toList ++ ['\n']) =
      ((Lexer.between.feed [] a.toList).1 ++ last, .between) := by
    simp [Lexer.feed_append, Lexer.feed_cons, Lexer.step_newline hlast]
  have htext : (a ++ "\n" ++ b).toList = (a.toList ++ ['\n']) ++ b.toList := by simp
  calc scan (a ++ "\n" ++ b)
      = (Lexer.between.scan (.after (a.toList ++ ['\n'])) b.toList).map
          ((Lexer.between.feed [] a.toList).1 ++ last ++ ·) := by
        have happend := Lexer.scan_append .between [] (a.toList ++ ['\n']) b.toList
        rw [habove, ← htext] at happend
        exact happend
    _ = _ := by
        rw [Position.after_lines]
        exact congrArg _ (Lexer.scan_down _ .between .start b.toList)

namespace Program

/-- A block that opened `n` lines further down. -/
def Open.down (n : Nat) (block : Open) : Open := ⟨block.start.down n, block.before⟩

/-- Tokens further down assemble to the same data. -/
theorem assemble_down (n : Nat) (enclosing : List Open) (done : List (Datum Unit))
    (tokens : List Token) :
    assemble (enclosing.map (Open.down n)) done (tokens.map (Token.down n)) =
      (assemble enclosing done tokens).mapError (Error.down n) := by
  induction tokens generalizing enclosing done with
  | nil => cases enclosing <;> rfl
  | cons token tokens ih =>
    cases token with
    | opening start => exact ih (⟨start, done⟩ :: enclosing) []
    | closing start =>
      cases enclosing with
      | nil => rfl
      | cons block outer => exact ih outer _
    | string start raw => exact ih enclosing _
    | word start chars => exact ih enclosing _

/-- Tokens that make a program leave no block open for those that follow. -/
theorem assemble_append {enclosing : List Open} {done : List (Datum Unit)} {tokens : List Token}
    {p : Program} (h : assemble enclosing done tokens = .ok p) (more : List Token) :
    assemble enclosing done (tokens ++ more) = assemble [] p.reverse more := by
  induction tokens generalizing enclosing done with
  | nil =>
    cases enclosing with
    | nil => cases h; simp
    | cons => cases h
  | cons token tokens ih =>
    cases token with
    | opening | string | word => exact ih h
    | closing start =>
      cases enclosing with
      | nil => cases h
      | cons => exact ih h

/-- Data that stand before all blocks come first in the program. -/
theorem assemble_before (base : List (Datum Unit)) (tokens : List Token) :
    (∀ done, assemble [] (done ++ base) tokens =
      (assemble [] done tokens).map (base.reverse ++ ·)) ∧
    ∀ inner start before done,
      assemble (inner ++ [⟨start, before ++ base⟩]) done tokens =
        (assemble (inner ++ [⟨start, before⟩]) done tokens).map (base.reverse ++ ·) := by
  induction tokens with
  | nil =>
    refine ⟨fun done => by simp [assemble, Except.map], fun inner start before done => ?_⟩
    cases inner <;> rfl
  | cons token tokens ih =>
    obtain ⟨ihTop, ihInner⟩ := ih
    cases token with
    | opening here =>
      exact ⟨fun done => ihInner [] here done [],
        fun inner start before done => ihInner (⟨here, done⟩ :: inner) start before []⟩
    | string here raw =>
      exact ⟨fun done => ihTop (_ :: done), fun inner start before done => ihInner inner ..⟩
    | word here chars =>
      exact ⟨fun done => ihTop (_ :: done), fun inner start before done => ihInner inner ..⟩
    | closing here =>
      refine ⟨fun done => rfl, fun inner start before done => ?_⟩
      cases inner with
      -- the bracket that closes the outermost block
      | nil => exact ihTop (.block () done.reverse :: before)
      | cons block inner => exact ihInner inner ..

/-- What stands below a program is read as if it stood alone: its data follow those above, and a
fault in it is the same fault, as many lines further down as the text above takes. -/
theorem read_below {a : String} {p : Program} (h : read a = .ok p) (b : String) :
    (∀ q, read b = .ok q → read (a ++ "\n" ++ b) = .ok (p ++ q)) ∧
      ∀ line column fault, read b = .error (.parse ⟨line, column⟩ fault) →
        read (a ++ "\n" ++ b) =
          .error (.parse ⟨line + (1 + a.toList.count '\n'), column⟩ fault) := by
  obtain ⟨tokens, htokens, hp⟩ : ∃ tokens, Token.scan a = .ok tokens ∧
      assemble [] [] tokens = .ok p := by
    cases htokens : Token.scan a with
    | error failure => rw [read, htokens] at h; cases h
    | ok tokens => rw [read, htokens] at h; exact ⟨tokens, rfl, h⟩
  have hread : read (a ++ "\n" ++ b) =
      ((read b).mapError (Error.down (a.toList.count '\n' + 1))).map (p ++ ·) := by
    rw [read, Token.scan_below htokens, read]
    cases Token.scan b with
    | error failure => rfl
    | ok below =>
      have hdata (tokens : List Token) :
          assemble [] p.reverse tokens = (assemble [] [] tokens).map (p ++ ·) := by
        simpa using (assemble_before p.reverse tokens).1 []
      calc assemble [] [] (tokens ++ below.map (Token.down (a.toList.count '\n' + 1)))
          = assemble [] p.reverse (below.map (Token.down (a.toList.count '\n' + 1))) :=
            assemble_append hp _
        _ = (assemble [] [] (below.map (Token.down (a.toList.count '\n' + 1)))).map (p ++ ·) :=
            hdata _
        _ = _ := congrArg _ (assemble_down _ [] [] below)
  refine ⟨fun q hq => by rw [hread, hq]; rfl, fun line column fault hb => ?_⟩
  rw [hread, hb, Nat.add_comm 1]
  rfl

/-- A word that the end of the text above would end, and a fault below it. -/
theorem read_below_word :
    read "dup # twice\n*" = .ok [.word "dup", .word "*"] ∧
      read ("dup # twice\n*" ++ "\n" ++ "1\n ]") = .error (.parse ⟨3, 1⟩ .unbalancedClose) := by
  have habove : read "dup # twice\n*" = .ok [.word "dup", .word "*"] := rfl
  exact ⟨habove, (read_below habove "1\n ]").2 1 1 .unbalancedClose rfl⟩

end Program

end Catena
