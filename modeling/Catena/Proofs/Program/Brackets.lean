import Catena.Proofs.Program.Lexing
import Mathlib.Data.List.Induction
import Mathlib.Data.List.Nodup

/-!
# The brackets of a text

Which brackets of a text count, and which of them belong together, can be said without tokens and
without blocks under construction:

* every character is read in a mode (`Mode`), which the characters before it decide, and the mode
  says whether the character is a bracket, begins an item or is of no account (`Mode.mark`);
* two brackets match when the marks between them are balanced (`Matched`).

`read_or_blame` says what reading comes to in these terms: the open string is blamed first, then
the first closing bracket without partner, then the last opening one; a text with none of these is
a program that is nested as its brackets are (`Program.outline`).

The proof has three parts. The tokens of a text are its marks, at their places
(`Lexer.feed_marks`). Assembling tokens keeps the marks read so far in the form of a stack of open
brackets with balanced marks after each (`Pending`), and so ends in one of three shapes
(`Program.Judged`). In each of them it is known which brackets match, because balanced marks never
close more than they have opened (`Balanced.rise_nonneg`).
-/

namespace Catena

/-! ## Characters and marks -/

/-- What the characters before a place leave open there. -/
inductive Mode where
  | outside
  | word
  /-- A string; the flag is set after a backslash that protects the next character. -/
  | string (escaped : Bool)
  | comment
  deriving DecidableEq

/-- What a character is in the structure of a text. -/
inductive Mark where
  | opening
  | closing
  /-- The first character of a word or the quote that opens a string. -/
  | item
  deriving DecidableEq

namespace Mode

/-- Whether a string is open. -/
def isString : Mode → Bool
  | string _ => true
  | _ => false

/-- The mode after a character. -/
def next (mode : Mode) (c : Char) : Mode :=
  match mode with
  | comment => if c = '\n' then outside else comment
  | string true => string false
  | string false => if c = '"' then outside else string (c = '\\')
  | outside | word =>
    if c = '"' then string false
    else if c = '#' ∧ mode = outside then comment
    else if c = '[' ∨ c = ']' ∨ Text.isBlank c then outside
    else word

/-- What a character is in this mode; nothing, if it is inside a string, a comment or a word, or
keeps two items apart. -/
def mark (mode : Mode) (c : Char) : Option Mark :=
  match mode with
  | comment | string _ => none
  | outside | word =>
    if c = '"' then some .item
    else if c = '[' then some .opening
    else if c = ']' then some .closing
    else if mode = word ∨ c = '#' ∨ Text.isBlank c then none
    else some .item

/-- The mode after a text. -/
def after (text : List Char) : Mode := text.foldl next outside

@[simp] theorem after_concat (text : List Char) (c : Char) :
    after (text ++ [c]) = (after text).next c := by
  simp [after]

end Mode

/-- The marks of the characters that follow `before`, each with the text before it. -/
def marksFrom (mode : Mode) (before : List Char) : List Char → List (List Char × Mark)
  | [] => []
  | c :: cs =>
    (mode.mark c).toList.map (before, ·) ++ marksFrom (mode.next c) (before ++ [c]) cs

/-- The marks of a text, each with the text before it. -/
def marks (text : List Char) : List (List Char × Mark) := marksFrom .outside [] text

/-- The text before a mark goes on through the text before every later mark. -/
theorem marksFrom_before (mode : Mode) (before cs : List Char) :
    (∀ x ∈ marksFrom mode before cs, before <+: x.1) ∧
      (marksFrom mode before cs).Pairwise fun x y => x.1 <+: y.1 ∧ x.1 ≠ y.1 := by
  induction cs generalizing mode before with
  | nil => simp [marksFrom]
  | cons c cs ih =>
    obtain ⟨hall, hpairs⟩ := ih (mode.next c) (before ++ [c])
    have hlater : ∀ x ∈ marksFrom (mode.next c) (before ++ [c]) cs,
        before <+: x.1 ∧ before ≠ x.1 := by
      intro x hx
      obtain ⟨rest, hrest⟩ := hall x hx
      rw [List.append_assoc] at hrest
      exact ⟨⟨_, hrest⟩, fun h => by simp [← h] at hrest⟩
    rw [marksFrom]
    cases mode.mark c with
    | none => simpa using ⟨fun x m hx => (hlater (x, m) hx).1, hpairs⟩
    | some m =>
      refine ⟨?_, ?_⟩
      · simpa using fun x m hx => (hlater (x, m) hx).1
      · simpa using ⟨fun x m hx => hlater (x, m) hx, hpairs⟩

/-! ## Matching brackets -/

section Matching

variable {α : Type}

/-- Marks in which every bracket has a partner. -/
inductive Balanced : List (α × Mark) → Prop
  | nil : Balanced []
  | item (x : α) {l} : Balanced l → Balanced ((x, .item) :: l)
  | block (p q : α) {l r} : Balanced l → Balanced r →
      Balanced ((p, .opening) :: (l ++ (q, .closing) :: r))

/-- The brackets at `p` and `q` belong together: the marks between them are balanced. -/
def Matched (ms : List (α × Mark)) (p q : α) : Prop :=
  ∃ l m r, ms = l ++ (p, .opening) :: (m ++ (q, .closing) :: r) ∧ Balanced m

theorem Matched.mono {ms whole : List (α × Mark)} {p q : α} (h : Matched ms p q)
    (before after : List (α × Mark)) (hwhole : whole = before ++ ms ++ after) :
    Matched whole p q := by
  obtain ⟨l, m, r, rfl, hm⟩ := h
  exact ⟨before ++ l, m, r ++ after, by simp [hwhole], hm⟩

/-- How many more brackets open than close. -/
def rise : List (α × Mark) → Int
  | [] => 0
  | (_, .opening) :: ms => 1 + rise ms
  | (_, .closing) :: ms => -1 + rise ms
  | (_, .item) :: ms => rise ms

theorem rise_append (l r : List (α × Mark)) : rise (l ++ r) = rise l + rise r := by
  induction l with
  | nil => simp [rise]
  | cons x l ih => rcases x with ⟨_, _ | _ | _⟩ <;> simp [rise, ih] <;> omega

namespace Balanced

variable {l r : List (α × Mark)}

theorem append (hl : Balanced l) (hr : Balanced r) : Balanced (l ++ r) := by
  induction hl with
  | nil => exact hr
  | item x _ ih => exact .item x ih
  | block p q ha _ _ ih => simpa using block p q ha ih

theorem rise_eq_zero (hl : Balanced l) : rise l = 0 := by
  induction hl with
  | nil => rfl
  | item x _ ih => simpa [rise] using ih
  | block p q _ _ ih₁ ih₂ => simp [rise, rise_append, ih₁, ih₂]

/-- Up to any point, balanced marks close no more brackets than they open. -/
theorem rise_nonneg (hl : Balanced l) {u v : List (α × Mark)} (h : l = u ++ v) : 0 ≤ rise u := by
  induction hl generalizing u v with
  | nil => simp [List.nil_eq_append_iff.1 h, rise]
  | item x _ ih =>
    obtain ⟨rfl, -⟩ | ⟨u, rfl, hu⟩ := List.cons_eq_append_iff.1 h
    · simp [rise]
    · simpa [rise] using ih hu
  | @block p q a b ha _ iha ihb =>
    obtain ⟨rfl, -⟩ | ⟨u, rfl, hu⟩ := List.cons_eq_append_iff.1 h
    · simp [rise]
    obtain ⟨w, rfl, hw⟩ | ⟨w, rfl, -⟩ := List.append_eq_append_iff.1 hu
    -- the point is in the second part, where the block is closed already
    · obtain ⟨rfl, -⟩ | ⟨w, rfl, hb⟩ := List.cons_eq_append_iff.1 hw
      · have := ha.rise_eq_zero
        simp [rise, this]
      · have := ihb hb
        simp only [rise, rise_append, ha.rise_eq_zero]
        omega
    -- the point is inside the block
    · have := iha rfl
      simp only [rise]
      omega

theorem exists_opening (hl : Balanced l) {q : α} (hq : (q, .closing) ∈ l) :
    ∃ p, Matched l p q := by
  induction hl with
  | nil => simp at hq
  | @item x l _ ih =>
    obtain ⟨p, hp⟩ := ih (by simpa using hq)
    exact ⟨p, hp.mono [(x, .item)] [] (by simp)⟩
  | @block p q' a b ha hb iha ihb =>
    simp only [List.mem_cons, List.mem_append, Prod.mk.injEq, reduceCtorEq, and_false, and_true,
      false_or] at hq
    rcases hq with hq | rfl | hq
    · obtain ⟨p', hp⟩ := iha hq
      exact ⟨p', hp.mono [(p, .opening)] ((q', .closing) :: b) (by simp)⟩
    · exact ⟨p, [], a, b, rfl, ha⟩
    · obtain ⟨p', hp⟩ := ihb hq
      exact ⟨p', hp.mono ((p, .opening) :: (a ++ [(q', .closing)])) [] (by simp)⟩

theorem exists_closing (hl : Balanced l) {p : α} (hp : (p, .opening) ∈ l) :
    ∃ q, Matched l p q := by
  induction hl with
  | nil => simp at hp
  | @item x l _ ih =>
    obtain ⟨q, hq⟩ := ih (by simpa using hp)
    exact ⟨q, hq.mono [(x, .item)] [] (by simp)⟩
  | @block p' q a b ha hb iha ihb =>
    simp only [List.mem_cons, List.mem_append, Prod.mk.injEq, reduceCtorEq, and_false, and_true,
      false_or] at hp
    rcases hp with rfl | hp | hp
    · exact ⟨q, [], a, b, rfl, ha⟩
    · obtain ⟨q', hq⟩ := iha hp
      exact ⟨q', hq.mono [(p', .opening)] ((q, .closing) :: b) (by simp)⟩
    · obtain ⟨q', hq⟩ := ihb hp
      exact ⟨q', hq.mono ((p', .opening) :: (a ++ [(q, .closing)])) [] (by simp)⟩

end Balanced

/-- Marks that leave the brackets of `stack` open, the innermost first. -/
inductive Pending : List α → List (α × Mark) → Prop
  | balanced {l} : Balanced l → Pending [] l
  | opened {stack l m} (p : α) : Pending stack l → Balanced m →
      Pending (p :: stack) (l ++ (p, .opening) :: m)

namespace Pending

variable {stack : List α} {l m : List (α × Mark)}

theorem append (hl : Pending stack l) (hm : Balanced m) : Pending stack (l ++ m) := by
  cases hl with
  | balanced hl => exact .balanced (hl.append hm)
  | opened p hl hr => simpa using hl.opened p (hr.append hm)

theorem close {p : α} (hl : Pending (p :: stack) l) (q : α) :
    Pending stack (l ++ [(q, .closing)]) := by
  cases hl with
  | opened p hl hm => simpa using hl.append (.block p q hm .nil)

theorem exists_opening (hl : Pending stack l) {q : α} (hq : (q, .closing) ∈ l) :
    ∃ p, Matched l p q := by
  induction hl with
  | balanced hl => exact hl.exists_opening hq
  | @opened stack l m p _ hm ih =>
    simp only [List.mem_append, List.mem_cons, Prod.mk.injEq, reduceCtorEq, and_false,
      false_or] at hq
    rcases hq with hq | hq
    · obtain ⟨p', hp⟩ := ih hq
      exact ⟨p', hp.mono [] ((p, .opening) :: m) (by simp)⟩
    · obtain ⟨p', hp⟩ := hm.exists_opening hq
      exact ⟨p', hp.mono (l ++ [(p, .opening)]) [] (by simp)⟩

end Pending

end Matching

/-! ## The marks of the tokens -/

/-- What a token is in the structure of its text, and where. -/
def Token.mark : Token → Position × Mark
  | .opening start => (start, .opening)
  | .closing start => (start, .closing)
  | .string start _ => (start, .item)
  | .word start _ => (start, .item)

/-- A mark at its line and column. -/
def locate (x : List Char × Mark) : Position × Mark := (.after x.1, x.2)

namespace Lexer

/-- The mode that a state of the lexer is about. -/
def mode : Lexer → Mode
  | between => .outside
  | inWord _ _ => .word
  | inString _ _ escaped => .string escaped
  | inComment => .comment

/-- The item whose token is still to come. -/
def begun : Lexer → List (Position × Mark)
  | inWord start _ => [(start, .item)]
  | inString start _ _ => [(start, .item)]
  | _ => []

theorem mode_step (lexer : Lexer) (here : Position) (c : Char) :
    (lexer.step here c).2.mode = lexer.mode.next c := by
  rcases lexer with _ | _ | ⟨_, _, _ | _⟩ | _ <;>
    simp only [step, stepOutside, mode, Mode.next, isInWord] <;> grind [mode]

/-- A character adds its mark to those of the tokens and of the item in progress. -/
theorem marks_step (lexer : Lexer) (here : Position) (c : Char) :
    (lexer.step here c).1.map Token.mark ++ (lexer.step here c).2.begun =
      lexer.begun ++ (lexer.mode.mark c).toList.map (here, ·) := by
  rcases lexer with _ | _ | ⟨_, _, _ | _⟩ | _ <;>
    simp only [step, stepOutside, mode, Mode.mark, isInWord] <;> grind [begun, flush, Token.mark]

theorem mode_feed (lexer : Lexer) (before cs : List Char) :
    (lexer.feed before cs).2.mode = cs.foldl Mode.next lexer.mode := by
  induction cs generalizing lexer before with
  | nil => rfl
  | cons c cs ih => simp [feed_cons, ih, mode_step]

/-- **The tokens of a text are its marks**, each at its place. -/
theorem marks_feed (lexer : Lexer) (before cs : List Char) :
    (lexer.feed before cs).1.map Token.mark ++ (lexer.feed before cs).2.begun =
      lexer.begun ++ (marksFrom lexer.mode before cs).map locate := by
  induction cs generalizing lexer before with
  | nil => simp [marksFrom]
  | cons c cs ih =>
    have hstep := marks_step lexer (.after before) c
    simp only [feed_cons, List.map_append, List.append_assoc, ih, mode_step, marksFrom]
    rw [← List.append_assoc, hstep]
    simp [locate, Function.comp_def]

theorem step_eq_inString {lexer : Lexer} {here start : Position} {c : Char} {taken : List Char}
    {escaped : Bool} (h : (lexer.step here c).2 = inString start taken escaped) :
    (∃ taken' escaped', lexer = inString start taken' escaped') ∨
      (lexer.mode.isString = false ∧ c = '"' ∧ start = here) := by
  rcases lexer with _ | _ | ⟨_, _, _ | _⟩ | _ <;>
    simp only [step, stepOutside, mode, Mode.isString] at * <;> grind

theorem eq_inString_of_isString {lexer : Lexer} (h : lexer.mode.isString = true) :
    ∃ start taken escaped, lexer = inString start taken escaped := by
  cases lexer with
  | inString start taken escaped => exact ⟨start, taken, escaped, rfl⟩
  | _ => simp [mode, Mode.isString] at h

/-- Outside strings the end of the text completes the item in progress. -/
theorem finish_of_not_isString {lexer : Lexer} (h : lexer.mode.isString = false) :
    lexer.finish = .ok lexer.flush ∧ lexer.flush.map Token.mark = lexer.begun := by
  cases lexer with
  | inString => simp [mode, Mode.isString] at h
  | _ => exact ⟨rfl, rfl⟩

end Lexer

/-- A string opens after `before` and is open up to the end of the text. -/
def OpenString (text before : List Char) : Prop :=
  ∃ rest, text = before ++ '"' :: rest ∧ (Mode.after before).isString = false ∧
    ∀ piece, piece <+: rest → (Mode.after (before ++ '"' :: piece)).isString

/-- The lexer keeps the place of the quote that opened the string. -/
theorem Lexer.openString_of_feed {text : List Char} {start : Position} {taken : List Char}
    {escaped : Bool} (h : (between.feed [] text).2 = inString start taken escaped) :
    ∃ before, OpenString text before ∧ start = .after before := by
  induction text using List.reverseRecOn generalizing taken escaped with
  | nil => simp at h
  | append_singleton text c ih =>
    have hmode : (Mode.after (text ++ [c])).isString = true := by
      have := mode_feed between [] (text ++ [c])
      rw [h] at this
      rw [Mode.after, ← show between.mode = .outside from rfl, ← this]
      rfl
    simp only [feed_append, feed_cons, feed_nil, List.nil_append] at h
    obtain ⟨taken', escaped', hopen⟩ | ⟨hmode', rfl, rfl⟩ := step_eq_inString h
    -- the string was open before: the quote is the one found there
    · obtain ⟨before, ⟨rest, rfl, hbefore, hpieces⟩, hstart⟩ := ih hopen
      refine ⟨before, ⟨rest ++ [c], by simp, hbefore, fun piece hpiece => ?_⟩, hstart⟩
      rcases List.prefix_concat_iff.1 hpiece with rfl | hpiece
      · simpa using hmode
      · exact hpieces piece hpiece
    -- the character opens it
    · rw [mode_feed] at hmode'
      refine ⟨text, ⟨[], rfl, hmode', fun piece hpiece => ?_⟩, rfl⟩
      rw [List.prefix_nil.1 hpiece]
      exact hmode

/-! ## The nesting of a program -/

mutual

/-- The marks that a datum stands for: a block is what its brackets enclose. -/
def Datum.outline {ι : Type} : Datum ι → List Mark
  | .block _ body => .opening :: (Datum.outlineAll body ++ [.closing])
  | _ => [.item]

/-- The marks that a sequence of data stands for. -/
def Datum.outlineAll {ι : Type} : List (Datum ι) → List Mark
  | [] => []
  | d :: ds => d.outline ++ Datum.outlineAll ds

end

theorem Datum.outlineAll_append {ι : Type} (ds es : List (Datum ι)) :
    outlineAll (ds ++ es) = outlineAll ds ++ outlineAll es := by
  induction ds with
  | nil => simp [outlineAll]
  | cons d ds ih => simp [outlineAll, ih]

theorem Datum.outline_ofWord (chars : List Char) : (ofWord chars).outline = [.item] := by
  unfold ofWord
  split_ifs <;> try rfl
  split
  · rfl
  · split <;> rfl

namespace Program

/-- The marks of the data assembled so far: those before each open block, the bracket that opened
it, and those of the innermost one. -/
def outlineSoFar (enclosing : List Open) (done : List (Datum Unit)) : List Mark :=
  (enclosing.reverse.flatMap fun block => Datum.outlineAll block.before.reverse ++ [.opening]) ++
    Datum.outlineAll done.reverse

theorem outlineSoFar_push (enclosing : List Open) (done : List (Datum Unit)) (d : Datum Unit) :
    outlineSoFar enclosing (d :: done) = outlineSoFar enclosing done ++ d.outline := by
  simp [outlineSoFar, Datum.outlineAll_append, Datum.outlineAll]

theorem outlineSoFar_open (enclosing : List Open) (done : List (Datum Unit)) (start : Position) :
    outlineSoFar (⟨start, done⟩ :: enclosing) [] = outlineSoFar enclosing done ++ [.opening] := by
  simp [outlineSoFar, Datum.outlineAll]

theorem outlineSoFar_close (block : Open) (outer : List Open) (done : List (Datum Unit)) :
    outlineSoFar outer (.block () done.reverse :: block.before) =
      outlineSoFar (block :: outer) done ++ [.closing] := by
  simp [outlineSoFar, Datum.outlineAll_append, Datum.outlineAll, Datum.outline]

/-- The three ways in which assembling ends, with what is known of the marks in each. -/
inductive Judged : List (List Char × Mark) → Except Error Program → Prop
  | stray {l r} (q : List Char) : Balanced l →
      Judged (l ++ (q, .closing) :: r) (.error (.parse (.after q) .unbalancedClose))
  | unclosed {stack l m} (p : List Char) : Pending stack l → Balanced m →
      Judged (l ++ (p, .opening) :: m) (.error (.parse (.after p) .unclosedBlock))
  | balanced {ms program} : Balanced ms → Datum.outlineAll program = ms.map Prod.snd →
      Judged ms (.ok program)

/-- **Assembling settles the marks.** The open blocks are those of the marks read so far. -/
theorem judged_assemble {tokens : List Token} {l r : List (List Char × Mark)}
    {stack : List (List Char)} {enclosing : List Open} {done : List (Datum Unit)}
    (hl : Pending stack l) (hstack : enclosing.map Open.start = stack.map Position.after)
    (houtline : outlineSoFar enclosing done = l.map Prod.snd)
    (htokens : tokens.map Token.mark = r.map locate) :
    Judged (l ++ r) (assemble enclosing done tokens) := by
  induction tokens generalizing l r stack enclosing done with
  | nil =>
    obtain rfl : r = [] := by simpa using htokens.symm
    cases hl with
    | balanced hl =>
      obtain rfl : enclosing = [] := by simpa using hstack
      simpa [assemble] using .balanced hl houtline
    | opened p hl hm =>
      cases enclosing with
      | nil => simp at hstack
      | cons block outer =>
        obtain ⟨hp, -⟩ := List.cons.inj hstack
        simpa [assemble, hp] using Judged.unclosed p hl hm
  | cons token tokens ih =>
    obtain ⟨x, r, rfl⟩ : ∃ x r', r = x :: r' := by
      cases r with
      | nil => simp at htokens
      | cons x r => exact ⟨x, r, rfl⟩
    obtain ⟨place, m⟩ := x
    obtain ⟨hmark, hrest⟩ := List.cons.inj htokens
    rw [List.append_cons]
    -- an item of either kind is one more datum of the innermost block
    have hitem : ∀ d : Datum Unit, d.outline = [.item] → m = .item →
        Judged (l ++ [(place, m)] ++ r) (assemble enclosing (d :: done) tokens) := by
      rintro d hd rfl
      exact ih (hl.append (.item place .nil)) hstack
        (by simp [outlineSoFar_push, hd, houtline]) hrest
    cases token with
    | opening start =>
      obtain ⟨rfl, rfl⟩ := Prod.mk.inj hmark
      exact ih (hl.opened place .nil) (by simp [hstack])
        (by simp [outlineSoFar_open, houtline]) hrest
    | closing start =>
      obtain ⟨rfl, rfl⟩ := Prod.mk.inj hmark
      cases hl with
      | balanced hl =>
        obtain rfl : enclosing = [] := by simpa using hstack
        simpa [assemble] using Judged.stray place hl
      | opened p hl hm =>
        cases enclosing with
        | nil => simp at hstack
        | cons block outer =>
          exact ih ((hl.opened p hm).close place) (List.cons.inj hstack).2
            (by simp [outlineSoFar_close, houtline]) hrest
    | string start raw => exact hitem _ rfl (Prod.mk.inj hmark).2.symm
    | word start chars => exact hitem _ (Datum.outline_ofWord chars) (Prod.mk.inj hmark).2.symm

/-- A text that leaves no string open is judged by its marks. -/
theorem judged_read {source : String} (h : (Mode.after source.toList).isString = false) :
    Judged (marks source.toList) (read source) := by
  have hmarks := Lexer.marks_feed .between [] source.toList
  have hmode : (Lexer.between.feed [] source.toList).2.mode.isString = false := by
    rwa [Lexer.mode_feed]
  rw [read, Token.scan_eq]
  generalize Lexer.between.feed [] source.toList = fed at hmarks hmode
  obtain ⟨hfinish, hflush⟩ := Lexer.finish_of_not_isString hmode
  rw [hfinish]
  have hstart : Pending [] ([] : List (List Char × Mark)) := .balanced .nil
  refine judged_assemble hstart rfl rfl ?_
  rw [List.map_append, hflush]
  exact hmarks

/-- A text that leaves a string open is blamed on its quote. -/
theorem read_of_isString {source : String} (h : (Mode.after source.toList).isString = true) :
    ∃ before, OpenString source.toList before ∧
      read source = .error (.parse (.after before) .unclosedString) := by
  have hmode : (Lexer.between.feed [] source.toList).2.mode.isString = true := by
    rwa [Lexer.mode_feed]
  obtain ⟨start, taken, escaped, hopen⟩ := Lexer.eq_inString_of_isString hmode
  obtain ⟨before, hbefore, rfl⟩ := Lexer.openString_of_feed hopen
  refine ⟨before, hbefore, ?_⟩
  rw [read, Token.scan_eq, hopen]
  rfl

end Program

/-! ## Blame -/

/-- A closing bracket at `place` that no opening one matches. -/
def Stray (text place : List Char) : Prop :=
  (place, .closing) ∈ marks text ∧ ¬∃ p, Matched (marks text) p place

/-- An opening bracket at `place` that no closing one matches. -/
def Unclosed (text place : List Char) : Prop :=
  (place, .opening) ∈ marks text ∧ ¬∃ q, Matched (marks text) place q

/-- The first of the places with a property. -/
def IsFirst (P : List Char → Prop) (place : List Char) : Prop :=
  P place ∧ ∀ other, P other → place <+: other

/-- The last of the places with a property. -/
def IsLast (P : List Char → Prop) (place : List Char) : Prop :=
  P place ∧ ∀ other, P other → other <+: place

/-- The reader refuses a text and says what is wrong after `before`: the line is one more than the
line feeds before the place, and the column one more than the characters after the last of them. -/
def Blames (result : Except Error Program) (before : List Char) (fault : ReadFault)
    (wording : String) : Prop :=
  result = .error (.parse (.after before) fault) ∧
    (Error.parse (.after before) fault).message =
      "parse error at line " ++ toString (before.count '\n' + 1) ++ ", column " ++
        toString ((before.reverse.takeWhile (· ≠ '\n')).length + 1) ++ ": " ++ wording

theorem nodup_marks (text : List Char) : (marks text).Nodup :=
  (marksFrom_before .outside [] text).2.imp fun h hxy => h.2 (congrArg Prod.fst hxy)

/-- The only place where a mark stands. -/
theorem marks_split {text : List Char} {x : List Char × Mark} {l r l' r' : List (List Char × Mark)}
    (h : marks text = l ++ x :: r) (h' : marks text = l' ++ x :: r') : l = l' ∧ r = r' := by
  have hnodup := nodup_marks text
  rw [h, List.nodup_middle, List.nodup_cons, List.mem_append, not_or] at hnodup
  obtain ⟨hl, -, hr⟩ := (List.append_cons_inj_of_notMem hnodup.1.1 hnodup.1.2).1 (h.symm.trans h')
  exact ⟨hl, hr⟩

/-- A closing bracket after balanced marks is the first that matches nothing. -/
theorem isFirst_stray {text q : List Char} {l r : List (List Char × Mark)}
    (hmarks : marks text = l ++ (q, .closing) :: r) (hl : Balanced l) :
    IsFirst (Stray text) q := by
  refine ⟨⟨by simp [hmarks], ?_⟩, ?_⟩
  · rintro ⟨p, a, m, b, hsplit, hm⟩
    -- otherwise the balanced marks before it would leave a bracket open
    have hbefore : marks text = (a ++ (p, .opening) :: m) ++ (q, .closing) :: b := by simp [hsplit]
    obtain ⟨hl', -⟩ := marks_split hmarks hbefore
    have hrise := hl.rise_eq_zero
    have ha := hl.rise_nonneg hl'
    rw [hl', rise_append, rise, hm.rise_eq_zero] at hrise
    omega
  · rintro other ⟨hother, hunmatched⟩
    have hpairs := (marksFrom_before .outside [] text).2
    rw [← marks, hmarks] at hpairs
    rw [hmarks, List.mem_append, List.mem_cons] at hother
    rcases hother with hother | hother | hother
    · obtain ⟨p, hp⟩ := hl.exists_opening hother
      exact absurd ⟨p, hp.mono [] _ hmarks⟩ hunmatched
    · obtain ⟨rfl, -⟩ := Prod.mk.inj hother
      exact List.prefix_rfl
    · exact ((List.pairwise_cons.1 (List.pairwise_append.1 hpairs).2.1).1 _ hother).1

/-- Where the marks only leave brackets open, every closing one matches. -/
theorem not_exists_stray {text : List Char} {stack : List (List Char)}
    {ms : List (List Char × Mark)} (hmarks : marks text = ms) (hms : Pending stack ms) :
    ¬∃ place, Stray text place := by
  rintro ⟨q, hq, hunmatched⟩
  exact hunmatched (hmarks ▸ hms.exists_opening (hmarks ▸ hq))

/-- An opening bracket before balanced marks is the last that matches nothing. -/
theorem isLast_unclosed {text p : List Char} {l m : List (List Char × Mark)}
    (hmarks : marks text = l ++ (p, .opening) :: m) (hm : Balanced m) :
    IsLast (Unclosed text) p := by
  refine ⟨⟨by simp [hmarks], ?_⟩, ?_⟩
  · rintro ⟨q, a, b, c, hsplit, hb⟩
    -- otherwise the balanced marks after it would close a bracket too many
    obtain ⟨-, hm'⟩ := marks_split hmarks hsplit
    have := hm.rise_nonneg (u := b ++ [(q, .closing)]) (v := c) (by simp [hm'])
    rw [rise_append, hb.rise_eq_zero] at this
    simp [rise] at this
  · rintro other ⟨hother, hunmatched⟩
    have hpairs := (marksFrom_before .outside [] text).2
    rw [← marks, hmarks] at hpairs
    rw [hmarks, List.mem_append, List.mem_cons] at hother
    rcases hother with hother | hother | hother
    · exact ((List.pairwise_append.1 hpairs).2.2 _ hother _ List.mem_cons_self).1
    · obtain ⟨rfl, -⟩ := Prod.mk.inj hother
      exact List.prefix_rfl
    · obtain ⟨q, hq⟩ := hm.exists_closing hother
      exact absurd ⟨q, hq.mono (l ++ [(p, .opening)]) [] (by simp [hmarks])⟩ hunmatched

/-- **Reading a text.** An open string is blamed on its quote; failing that, a closing bracket
without partner, on the first; failing that, an opening bracket without partner, on the last; and a
text that has none of these is a program with the nesting of its brackets. -/
theorem read_or_blame (source : String) :
    let text := source.toList
    open Classical in
    if (Mode.after text).isString then
      ∃ before, OpenString text before ∧
        Blames (Program.read source) before .unclosedString "unclosed string literal"
    else if ∃ place, Stray text place then
      ∃ before, IsFirst (Stray text) before ∧
        Blames (Program.read source) before .unbalancedClose "unbalanced ']'"
    else if ∃ place, Unclosed text place then
      ∃ before, IsLast (Unclosed text) before ∧
        Blames (Program.read source) before .unclosedBlock "unclosed '['"
    else ∃ program, Program.read source = .ok program ∧
      Datum.outlineAll program = (marks text).map Prod.snd := by
  intro text
  by_cases hstring : (Mode.after text).isString = true
  · obtain ⟨before, hbefore, hread⟩ := Program.read_of_isString hstring
    rw [if_pos hstring]
    exact ⟨before, hbefore, hread, rfl⟩
  rw [if_neg hstring]
  have hjudged := Program.judged_read (Bool.not_eq_true _ ▸ hstring)
  generalize hmarks : marks source.toList = ms at hjudged
  generalize Program.read source = result at hjudged
  cases hjudged with
  | stray q hl =>
    have hfirst := isFirst_stray hmarks hl
    rw [if_pos ⟨q, hfirst.1⟩]
    exact ⟨q, hfirst, rfl, rfl⟩
  | unclosed p hl hm =>
    have hlast := isLast_unclosed hmarks hm
    rw [if_neg (not_exists_stray hmarks (hl.opened p hm)), if_pos ⟨p, hlast.1⟩]
    exact ⟨p, hlast, rfl, rfl⟩
  | balanced hms houtline =>
    have hnone : ¬∃ place, Unclosed text place := by
      rintro ⟨p, hp, hunmatched⟩
      exact hunmatched (hmarks ▸ hms.exists_closing (hmarks ▸ hp))
    rw [if_neg (not_exists_stray hmarks (.balanced hms)), if_neg hnone]
    exact ⟨_, rfl, houtline⟩

end Catena
