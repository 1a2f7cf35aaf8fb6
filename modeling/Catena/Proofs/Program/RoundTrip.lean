import Catena.Proofs.Number.Grammar
import Catena.Proofs.Number.Literals
import Catena.Proofs.Program.Lexing
import Catena.World.Display

/-!
# Programs and their texts

Printing a program and reading the text gives the program again (`read_display`). Three things have
to fit together for this.

* What reading makes (`Written`). The characters of a word are those of one token: they have no
  blanks, brackets and quotes among them and do not begin a comment. Printed, they are one token
  again.
* What a text is read as, wherever it stands (`Writes`). The data of a text are those of its parts,
  if there is a space between the parts, and brackets around a text make a block of them.
* Numbers, which are not printed as they were written. Their text is a numeral that rounds to the
  same number (`Number.numeral_display`).
-/

namespace Catena

/-! ## Words -/

/-- Whether a character neither ends a word nor is a token of its own. -/
def isPlain (c : Char) : Bool := !(c = '"' ∨ c = '[' ∨ c = ']' ∨ Text.isBlank c)

/-- What a word token can look like. -/
structure IsWord (chars : List Char) : Prop where
  plain : ∀ c ∈ chars, isPlain c
  /-- There is a first character, and it does not start a comment. -/
  begins : ∃ c ∈ chars.head?, c ≠ '#'

/-- A word token is a word. -/
def Token.Plain : Token → Prop
  | .word _ chars => IsWord chars
  | _ => True

/-- The characters of an unfinished word are a word. -/
def Lexer.Plain : Lexer → Prop
  | .inWord _ taken => IsWord taken.reverse
  | _ => True

namespace Lexer

variable {lexer : Lexer}

theorem Plain.flush (h : lexer.Plain) : ∀ t ∈ lexer.flush, t.Plain := by
  cases lexer <;> simp_all [Lexer.flush, Token.Plain, Lexer.Plain]

theorem Plain.stepOutside (h : lexer.Plain) (here : Position) (c : Char) :
    (∀ t ∈ (lexer.stepOutside here c).1, t.Plain) ∧ (lexer.stepOutside here c).2.Plain := by
  have happend (t : Token) (ht : t.Plain) : ∀ t' ∈ lexer.flush ++ [t], t'.Plain := by
    intro t' ht'
    rcases List.mem_append.1 ht' with ht' | ht'
    · exact h.flush t' ht'
    · rwa [List.mem_singleton.1 ht']
  unfold Lexer.stepOutside
  split_ifs with h₁ h₂ h₃ h₄ h₅
  · exact ⟨h.flush, trivial⟩
  · exact ⟨by simp, trivial⟩
  · exact ⟨happend _ trivial, trivial⟩
  · exact ⟨happend _ trivial, trivial⟩
  · exact ⟨h.flush, trivial⟩
  · have hc : isPlain c = true := by simp [isPlain, h₁, h₃, h₄, h₅]
    split
    · next start taken =>
      refine ⟨by simp, ?_, ?_⟩
      · intro c' hc'
        rw [List.reverse_cons, List.mem_append, List.mem_singleton] at hc'
        rcases hc' with hc' | rfl
        exacts [h.plain c' hc', hc]
      · obtain ⟨first, hfirst, hne⟩ := h.begins
        refine ⟨first, ?_, hne⟩
        rw [List.reverse_cons, List.head?_append, Option.mem_def.1 hfirst]
        rfl
    · next hno =>
      have hword : lexer.isInWord = false := by
        cases lexer <;> first | rfl | exact absurd rfl (hno _ _)
      refine ⟨by simp, by simpa using hc, c, by simp, fun heq => h₂ ⟨heq, by simp [hword]⟩⟩

theorem Plain.step (h : lexer.Plain) (here : Position) (c : Char) :
    (∀ t ∈ (lexer.step here c).1, t.Plain) ∧ (lexer.step here c).2.Plain := by
  cases lexer with
  | between | inWord _ _ => exact h.stepOutside here c
  | inString start taken escaped =>
    rw [Lexer.step]
    split_ifs
    · exact ⟨by simp [Token.Plain], trivial⟩
    · exact ⟨by simp, trivial⟩
  | inComment =>
    rw [Lexer.step]
    split_ifs <;> exact ⟨by simp, trivial⟩

theorem Plain.scan (h : lexer.Plain) {here : Position} {cs : List Char} {tokens : List Token}
    (hscan : lexer.scan here cs = .ok tokens) : ∀ t ∈ tokens, t.Plain := by
  induction cs generalizing lexer here tokens with
  | nil =>
    cases lexer with
    | inString _ _ _ => simp [Lexer.scan, Lexer.finish] at hscan
    | between | inComment | inWord _ _ =>
      obtain rfl := Except.ok.inj hscan
      exact h.flush
  | cons c cs ih =>
    obtain ⟨hfirst, hnext⟩ := h.step here c
    rw [Lexer.scan] at hscan
    cases hrest : (lexer.step here c).2.scan (here.advance c) cs with
    | error _ => simp [hrest, Except.map] at hscan
    | ok rest =>
      simp only [hrest, Except.map, Except.ok.injEq] at hscan
      subst hscan
      intro t ht
      rcases List.mem_append.1 ht with ht | ht
      exacts [hfirst t ht, ih hnext hrest t ht]

end Lexer

/-! ## What reading makes -/

/-- The data that a source text can write. -/
inductive Written : Datum Unit → Prop
  | word {chars : List Char} (h : IsWord chars) : Written (.ofWord chars)
  | string (raw : List Char) : Written (.ofString raw)
  | block {body : List (Datum Unit)} (h : ∀ d ∈ body, Written d) : Written (.block () body)

namespace Program

theorem written_assemble {enclosing : List Open} {done : List (Datum Unit)} {tokens : List Token}
    {program : Program} (h : assemble enclosing done tokens = .ok program)
    (htokens : ∀ t ∈ tokens, t.Plain) (henclosing : ∀ o ∈ enclosing, ∀ d ∈ o.before, Written d)
    (hdone : ∀ d ∈ done, Written d) : ∀ d ∈ program, Written d := by
  induction tokens generalizing enclosing done with
  | nil =>
    cases enclosing with
    | nil =>
      obtain rfl := Except.ok.inj h
      simpa using hdone
    | cons o _ => simp [assemble] at h
  | cons t tokens ih =>
    obtain ⟨ht, hrest⟩ := List.forall_mem_cons.1 htokens
    cases t with
    | opening start =>
      exact ih h hrest (List.forall_mem_cons.2 ⟨hdone, henclosing⟩) (by simp)
    | closing start =>
      cases enclosing with
      | nil => simp [assemble] at h
      | cons o outer =>
        obtain ⟨hbefore, houter⟩ := List.forall_mem_cons.1 henclosing
        have hblock : Written (.block () done.reverse) := .block (by simpa using hdone)
        exact ih h hrest houter (List.forall_mem_cons.2 ⟨hblock, hbefore⟩)
    | string start raw =>
      exact ih h hrest henclosing (List.forall_mem_cons.2 ⟨.string raw, hdone⟩)
    | word start chars =>
      exact ih h hrest henclosing (List.forall_mem_cons.2 ⟨.word ht, hdone⟩)

theorem written_of_read {source : String} {program : Program} (h : read source = .ok program) :
    ∀ d ∈ program, Written d := by
  cases hscan : Token.scan source with
  | error _ => simp [read, hscan, bind, Except.bind] at h
  | ok tokens =>
    simp only [read, hscan, bind, Except.bind] at h
    have hplain : Lexer.between.Plain := trivial
    exact written_assemble h (hplain.scan hscan) (by simp) (by simp)

end Program

/-! ## Reading a text in its place -/

/-- Neither in a string nor in a comment. -/
def Lexer.Outside : Lexer → Prop
  | between | inWord _ _ => True
  | _ => False

/-- A text that writes these data wherever it begins, provided that it is read to its end before
something else follows. -/
def Writes (text : List Char) (data : List (Datum Unit)) : Prop :=
  ∀ before, ∃ tokens lexer, Lexer.between.feed before text = (tokens, lexer) ∧ lexer.Outside ∧
    ∀ enclosing done rest, Program.assemble enclosing done (tokens ++ lexer.flush ++ rest) =
      Program.assemble enclosing (data.reverse ++ done) rest

theorem Lexer.Outside.feed_space {lexer : Lexer} (h : lexer.Outside) (before rest : List Char) :
    lexer.feed before (' ' :: rest) =
      (lexer.flush ++ (between.feed (before ++ [' ']) rest).1,
        (between.feed (before ++ [' ']) rest).2) := by
  have hstep : lexer.step (.after before) ' ' = (lexer.flush, between) := by
    cases lexer with
    | between | inWord _ _ => rfl
    | inString _ _ _ | inComment => exact h.elim
  rw [feed_cons, hstep]

namespace Lexer

theorem step_between {c : Char} (hplain : isPlain c = true) (hne : c ≠ '#') (here : Position) :
    between.step here c = ([], inWord here [c]) := by
  simp only [isPlain, Bool.not_eq_true', decide_eq_false_iff_not, not_or] at hplain
  simp [step, stepOutside, hplain, hne]

theorem feed_inWord {start : Position} {taken before cs : List Char} (h : ∀ c ∈ cs, isPlain c) :
    (inWord start taken).feed before cs = ([], inWord start (cs.reverse ++ taken)) := by
  induction cs generalizing taken before with
  | nil => rfl
  | cons c cs ih =>
    obtain ⟨hc, hcs⟩ := List.forall_mem_cons.1 h
    simp only [isPlain, Bool.not_eq_true', decide_eq_false_iff_not, not_or] at hc
    have hstep : (inWord start taken).step (.after before) c = ([], inWord start (c :: taken)) := by
      simp [step, stepOutside, isInWord, hc]
    rw [feed_cons, hstep, ih hcs]
    simp

/-- The characters of a text between quotes do not end the string. -/
theorem feed_encodeChar (start : Position) (taken before : List Char) (c : Char) :
    (inString start taken false).feed before (Text.Quoted.encodeChar c) =
      ([], inString start ((Text.Quoted.encodeChar c).reverse ++ taken) false) := by
  rw [Text.Quoted.encodeChar]
  split_ifs <;> simp_all [feed_cons, step]

theorem feed_encode (start : Position) (taken before cs : List Char) :
    (inString start taken false).feed before (Text.Quoted.encode cs) =
      ([], inString start ((Text.Quoted.encode cs).reverse ++ taken) false) := by
  induction cs generalizing taken before with
  | nil => rfl
  | cons c cs ih =>
    have hcons : Text.Quoted.encode (c :: cs) = Text.Quoted.encodeChar c ++ Text.Quoted.encode cs :=
      List.flatMap_cons
    rw [hcons, feed_append, feed_encodeChar, ih]
    simp

end Lexer

namespace Writes

theorem nil : Writes [] [] := fun _ => ⟨[], .between, rfl, trivial, fun _ _ _ => rfl⟩

/-- Two texts with a space between them. -/
theorem append {text₁ text₂ : List Char} {data₁ data₂ : List (Datum Unit)} (h₁ : Writes text₁ data₁)
    (h₂ : Writes text₂ data₂) : Writes (text₁ ++ ' ' :: text₂) (data₁ ++ data₂) := by
  intro before
  obtain ⟨tokens₁, lexer₁, hfeed₁, houtside, hassemble₁⟩ := h₁ before
  obtain ⟨tokens₂, lexer₂, hfeed₂, houtside₂, hassemble₂⟩ := h₂ (before ++ text₁ ++ [' '])
  refine ⟨tokens₁ ++ (lexer₁.flush ++ tokens₂), lexer₂, ?_, houtside₂,
    fun enclosing done rest => ?_⟩
  · rw [Lexer.feed_append, hfeed₁, houtside.feed_space, hfeed₂]
  · calc Program.assemble enclosing done
          (tokens₁ ++ (lexer₁.flush ++ tokens₂) ++ lexer₂.flush ++ rest)
        = Program.assemble enclosing done
            (tokens₁ ++ lexer₁.flush ++ (tokens₂ ++ lexer₂.flush ++ rest)) := by
          simp only [List.append_assoc]
      _ = Program.assemble enclosing (data₂.reverse ++ (data₁.reverse ++ done)) rest := by
          rw [hassemble₁, hassemble₂]
      _ = Program.assemble enclosing ((data₁ ++ data₂).reverse ++ done) rest := by simp

/-- A text between brackets. -/
theorem block {text : List Char} {data : List (Datum Unit)} (h : Writes text data) :
    Writes ('[' :: (text ++ [' ', ']'])) [.block () data] := by
  intro before
  obtain ⟨tokens, lexer, hfeed, houtside, hassemble⟩ := h (before ++ ['['])
  set place : Position := .after (before ++ ['['] ++ text ++ [' '])
  refine ⟨.opening (.after before) :: (tokens ++ (lexer.flush ++ [.closing place])), .between, ?_,
    trivial, fun enclosing done rest => ?_⟩
  · have hopening :
        Lexer.between.step (.after before) '[' = ([.opening (.after before)], .between) := rfl
    rw [Lexer.feed_cons, hopening, Lexer.feed_append, hfeed, houtside.feed_space]
    rfl
  · calc Program.assemble enclosing done
          (.opening (.after before) :: (tokens ++ (lexer.flush ++ [.closing place])) ++ [] ++ rest)
        = Program.assemble (⟨.after before, done⟩ :: enclosing) []
            (tokens ++ lexer.flush ++ (.closing place :: rest)) := by
          simp [Program.assemble]
      _ = Program.assemble (⟨.after before, done⟩ :: enclosing) data.reverse
            (.closing place :: rest) := by
          rw [hassemble, List.append_nil]
      _ = Program.assemble enclosing (.block () data :: done) rest := by
          simp [Program.assemble]

theorem word {chars : List Char} (h : IsWord chars) : Writes chars [.ofWord chars] := by
  intro before
  obtain ⟨first, hfirst, hne⟩ := h.begins
  obtain ⟨rest, rfl⟩ := List.head?_eq_some_iff.1 hfirst
  obtain ⟨hplain, hrest⟩ := List.forall_mem_cons.1 h.plain
  refine ⟨[], .inWord (.after before) (first :: rest).reverse, ?_, trivial,
    fun enclosing done rest => ?_⟩
  · rw [Lexer.feed_cons, Lexer.step_between hplain hne, Lexer.feed_inWord hrest]
    simp
  · simp [Lexer.flush, Program.assemble]

theorem string (s : String) : Writes (Text.Quoted.quote s).toList [.text s] := by
  intro before
  refine ⟨[.string (.after before) (Text.Quoted.encode s.toList)], .between, ?_, trivial,
    fun enclosing done rest => ?_⟩
  · rw [Text.Quoted.quote, String.toList_ofList, List.cons_append]
    have hopening :
        Lexer.between.step (.after before) '"' = ([], .inString (.after before) [] false) := rfl
    rw [Lexer.feed_cons, hopening, Lexer.feed_append, Lexer.feed_encode]
    simp [Lexer.feed_cons, Lexer.step]
  · have htext : Datum.ofString (Text.Quoted.encode s.toList) = .text s := by
      simp [Datum.ofString, Text.Quoted.decode_encode]
    simp [Lexer.flush, Program.assemble, htext]

end Writes

/-- A text that writes data is read as these data. -/
theorem Program.read_eq {source : String} {data : List (Datum Unit)}
    (h : Writes source.toList data) : Program.read source = .ok data := by
  obtain ⟨tokens, lexer, hfeed, houtside, hassemble⟩ := h []
  have hscan : Token.scan source = .ok (tokens ++ lexer.flush) := by
    rw [Token.scan_eq, hfeed]
    cases lexer with
    | between | inWord _ _ => rfl
    | inString _ _ _ | inComment => exact houtside.elim
  have hdata := hassemble [] [] []
  rw [List.append_nil] at hdata
  rw [read, hscan]
  change assemble [] [] (tokens ++ lexer.flush) = _
  rw [hdata]
  simp [assemble]

/-! ## Data that say the same -/

namespace Datum

variable {ι κ : Type}

/-- Two data of the same structure: the same literals, names and nesting, and equal numbers. -/
inductive Alike : Datum ι → Datum κ → Prop
  | nil : Alike .nil .nil
  | bool (b : Bool) : Alike (.bool b) (.bool b)
  | number {x y : Float} (h : (x == y) = true) : Alike (.number x) (.number y)
  | text (s : String) : Alike (.text s) (.text s)
  | word (name : Name) : Alike (.word name) (.word name)
  | symbol (name : Name) : Alike (.symbol name) (.symbol name)
  | block (i : ι) (k : κ) {body : List (Datum ι)} {body' : List (Datum κ)}
      (h : List.Forall₂ Alike body body') : Alike (.block i body) (.block k body')

mutual

/-- The numbers of a datum, those of nested blocks included, in the order of the text. -/
def numbers : Datum ι → List Float
  | number x => [x]
  | block _ body => numbersOf body
  | _ => []

/-- The numbers of a sequence of data. -/
def numbersOf : List (Datum ι) → List Float
  | [] => []
  | d :: ds => numbers d ++ numbersOf ds

end

theorem mem_numbersOf {x : Float} {d : Datum ι} {ds : List (Datum ι)} (hd : d ∈ ds)
    (hx : x ∈ d.numbers) : x ∈ numbersOf ds := by
  induction ds with
  | nil => simp at hd
  | cons d' ds ih =>
    rw [numbersOf, List.mem_append]
    rcases List.mem_cons.1 hd with rfl | hd
    exacts [.inl hx, .inr (ih hd)]

end Datum

/-! ## Numbers -/

theorem isPlain_of_isDigit {c : Char} (h : c.isDigit = true) : isPlain c = true := by
  have hcode : 48 ≤ c.toNat ∧ c.toNat ≤ 57 := Char.isDigit_iff_toNat.1 h
  have hne (other : Char) (hother : ¬(48 ≤ other.toNat ∧ other.toNat ≤ 57)) : c ≠ other := by
    rintro rfl
    exact hother hcode
  have hblank : Text.isBlank c = false := by
    simp [Text.isBlank, Text.Ranges.contains, Text.blankRanges]
    omega
  simp [isPlain, hblank, hne _ (by decide : ¬(48 ≤ '"'.toNat ∧ '"'.toNat ≤ 57)),
    hne _ (by decide : ¬(48 ≤ '['.toNat ∧ '['.toNat ≤ 57)),
    hne _ (by decide : ¬(48 ≤ ']'.toNat ∧ ']'.toNat ≤ 57))]

theorem Numeral.isWord {text : List Char} {d : Decimal} (h : Numeral text d) : IsWord text := by
  obtain ⟨hne, hchars⟩ := h.chars
  constructor
  · intro c hc
    rcases hchars c hc with hdigit | rfl | rfl
    exacts [isPlain_of_isDigit hdigit, by decide, by decide]
  · obtain ⟨c, cs, rfl⟩ := List.exists_cons_of_ne_nil hne
    refine ⟨c, rfl, ?_⟩
    rintro rfl
    simpa using hchars '#' (by simp)

/-- A numeral is read as a number. -/
theorem Numeral.ofWord {text : List Char} {d : Decimal} (h : Numeral text d) :
    Datum.ofWord text = .number d.toFloat := by
  obtain ⟨-, hchars⟩ := h.chars
  -- none of the other readings begins like a numeral
  have hfirst (c : Char) (cs : List Char) (hc : ¬(c.isDigit ∨ c = '-' ∨ c = '.')) :
      text ≠ c :: cs := by
    rintro rfl
    exact hc (hchars c (by simp))
  unfold Datum.ofWord
  rw [if_neg (hfirst _ _ (by decide)), if_neg (hfirst _ _ (by decide)),
    if_neg (hfirst _ _ (by decide))]
  split
  · exact absurd rfl (hfirst _ _ (by decide))
  · rw [Number.literal?_eq, h.parse?]
    rfl

/-! ## The round trip -/

/-- The text of a datum writes a datum like it. -/
def Renders (d : Datum Unit) : Prop := ∃ d', d.Alike d' ∧ Writes d.display.toList [d']

theorem renders_ofWord {chars : List Char} (h : IsWord chars)
    (hfinite : ∀ x ∈ (Datum.ofWord chars).numbers, x.isInf = false) :
    Renders (.ofWord chars) := by
  generalize hd : Datum.ofWord chars = d at hfinite
  -- all but numbers are printed as they were written
  have hsame (htext : d.display.toList = chars) (halike : d.Alike d) : Renders d :=
    ⟨d, halike, by rw [htext, ← hd]; exact .word h⟩
  have hcases := hd
  unfold Datum.ofWord at hcases
  split_ifs at hcases with h₁ h₂ h₃
  · subst hcases
    exact hsame (by rw [h₁]; rfl) (.bool true)
  · subst hcases
    exact hsame (by rw [h₂]; rfl) (.bool false)
  · subst hcases
    exact hsame (by rw [h₃]; rfl) .nil
  · split at hcases
    next c cs =>
      subst hcases
      exact hsame (by simp [Datum.display]) (.symbol _)
    next =>
      rw [Number.literal?_eq] at hcases
      cases hparse : Decimal.parse? chars with
      | some decimal =>
        rw [hparse] at hcases
        subst hcases
        obtain ⟨negative, m, e, hparts⟩ := exists_finite (hfinite _ (List.mem_singleton.2 rfl))
        obtain ⟨d', hnumeral, hequal⟩ := Number.numeral_display hparts
        refine ⟨.number d'.toFloat, .number hequal, ?_⟩
        rw [← hnumeral.ofWord]
        exact .word hnumeral.isWord
      | none =>
        rw [hparse] at hcases
        subst hcases
        exact hsame (by simp [Datum.display]) (.word _)

/-- The items of a block, each after a space. -/
theorem exists_writes_body {body : List (Datum Unit)} (h : ∀ d ∈ body, Renders d) :
    ∃ body', List.Forall₂ Datum.Alike body body' ∧ ∀ text data, Writes text data →
      Writes (text ++ (Datum.displayBody body).toList) (data ++ body') := by
  induction body with
  | nil => exact ⟨[], .nil, fun text data ht => by simpa [Datum.displayBody] using ht⟩
  | cons d ds ih =>
    obtain ⟨hd, hds⟩ := List.forall_mem_cons.1 h
    obtain ⟨d', halike, hwrites⟩ := hd
    obtain ⟨ds', hsame, hrest⟩ := ih hds
    refine ⟨d' :: ds', .cons halike hsame, fun text data ht => ?_⟩
    have hstep := hrest _ _ (ht.append hwrites)
    simpa [Datum.displayBody] using hstep

theorem Written.renders {d : Datum Unit} (h : Written d)
    (hfinite : ∀ x ∈ d.numbers, x.isInf = false) : Renders d := by
  induction h with
  | word h => exact renders_ofWord h hfinite
  | string raw => exact ⟨_, .text _, .string _⟩
  | @block body _ ih =>
    have hbody : ∀ d ∈ body, Renders d := fun d hd =>
      ih d hd fun x hx => hfinite x (Datum.mem_numbersOf hd hx)
    obtain ⟨body', hsame, hwrites⟩ := exists_writes_body hbody
    refine ⟨.block () body', .block () () hsame, ?_⟩
    have hblock := (hwrites [] [] .nil).block
    simpa [Datum.display] using hblock

theorem Program.display_cons (d : Datum Unit) (ds : Program) :
    Program.display (d :: ds) = d.display ++ Datum.displayBody ds := by
  induction ds generalizing d with
  | nil => simp [display, Datum.displayBody]
  | cons e ds ih =>
    have hsplit : display (d :: e :: ds) = d.display ++ (" " ++ display (e :: ds)) := by
      simp [display, String.append_assoc]
    rw [hsplit, ih, Datum.displayBody, String.append_assoc]

theorem World.displayStack_load (w : World) (program : Program) :
    (w.load program).1.displayStack (.ofValues ((w.load program).2.map .datum)) =
      Program.display program := by
  have hdata (w : World) (ds : Program) (n : Nat) :
      ((Datum.labelAll BlockId.mk ds n).1.map Value.datum).map w.display =
        ds.map Datum.display := by
    induction ds generalizing n with
    | nil => rfl
    | cons d ds ih => simp [Datum.labelAll, ih, display, displayWithin, Datum.display_label]
  rw [displayStack, displayAll, Stack.values_ofValues, Program.display]
  exact congrArg _ (hdata _ program _)

/-- **Printing a program and reading the text gives the program again**, provided that none of its
numbers is an infinity. The text is also that of a stack that holds the program. -/
theorem read_display {source : String} {program : Program}
    (hread : Program.read source = .ok program)
    (hfinite : ∀ x ∈ Datum.numbersOf program, x.isInf = false) :
    (∀ w : World, (w.load program).1.displayStack (.ofValues ((w.load program).2.map .datum)) =
        Program.display program) ∧
      ∃ program', Program.read (Program.display program) = .ok program' ∧
        List.Forall₂ Datum.Alike program program' := by
  refine ⟨fun w => w.displayStack_load program, ?_⟩
  have hrenders : ∀ d ∈ program, Renders d := fun d hd =>
    (Program.written_of_read hread d hd).renders fun x hx => hfinite x (Datum.mem_numbersOf hd hx)
  cases program with
  | nil => exact ⟨[], Program.read_eq .nil, .nil⟩
  | cons d ds =>
    obtain ⟨hd, hds⟩ := List.forall_mem_cons.1 hrenders
    obtain ⟨d', halike, hwrites⟩ := hd
    obtain ⟨ds', hsame, hrest⟩ := exists_writes_body hds
    refine ⟨d' :: ds', Program.read_eq ?_, .cons halike hsame⟩
    rw [Program.display_cons, String.toList_append]
    exact hrest _ _ hwrites

/-- A program with negative zero, which is printed without its sign, and a quote in a string. -/
theorem read_display_of_zero :
    ∃ program : Program, Program.read "[-0 \"a\\\"b\"]:c # done" = .ok program ∧
      (∀ x ∈ Datum.numbersOf program, x.isInf = false) ∧
      ∃ program', Program.read (Program.display program) = .ok program' ∧
        List.Forall₂ Datum.Alike program program' := by
  have hread : Program.read "[-0 \"a\\\"b\"]:c # done" =
      .ok [.block () [.number (Decimal.toFloat ⟨true, 0, 0⟩), .text "a\"b"], .symbol "c"] := rfl
  exact ⟨_, hread, by decide +kernel, (read_display hread (by decide +kernel)).2⟩

end Catena
