import Catena.Text.Joining.Table

/-!
# Joining characters

Readers take some runs of characters for one sign: a letter with its accents, a flag, a family of
joined pictographs. `Joining.of` says what a character does in such a run, and `Edge.joins` whether
a character belongs to the sign before it. The rules are those of extended grapheme clusters; an
`Edge` keeps what they need to know of the text so far.
-/

namespace Catena.Text

/-- What a character does next to others. -/
inductive Joining where
  | plain
  | carriageReturn
  | lineFeed
  | control
  /-- Belongs to the character before it. -/
  | extender
  /-- The zero width joiner, which also joins pictographs. -/
  | joiner
  /-- Belongs to the character before it and takes a place of its own. -/
  | spacer
  /-- Belongs to the character after it. -/
  | leader
  /-- One half of a flag. -/
  | regional
  | initial
  | vowel
  | final
  /-- A syllable that a vowel ends. -/
  | openSyllable
  /-- A syllable that a consonant ends. -/
  | closedSyllable
  | pictograph
  | consonant
  deriving DecidableEq, Inhabited

namespace Joining

/-- What a character does next to others. Of the syllables from `U+AC00` on, every twenty-eighth
ends with its vowel. -/
def of (c : Char) : Joining :=
  if ' ' ≤ c ∧ c ≤ '~' then .plain
  else if c = '\r' then .carriageReturn
  else if c = '\n' then .lineFeed
  else if c = '\u200d' then .joiner
  else if controlRanges.contains c then .control
  else if 0x1F1E6 ≤ c.toNat ∧ c.toNat ≤ 0x1F1FF then .regional
  else if 0xAC00 ≤ c.toNat ∧ c.toNat ≤ 0xD7A3 then
    if (c.toNat - 0xAC00) % 28 = 0 then .openSyllable else .closedSyllable
  else if extenderRanges.contains c then .extender
  else if spacerRanges.contains c then .spacer
  else if pictographRanges.contains c then .pictograph
  else if consonantRanges.contains c then .consonant
  else if leaderRanges.contains c then .leader
  else if initialRanges.contains c then .initial
  else if vowelRanges.contains c then .vowel
  else if finalRanges.contains c then .final
  else .plain

/-- Whether a character links the consonants around it. -/
def isLinker (c : Char) : Bool := linkerRanges.contains c

/-- Whether a mark may stand between linked consonants. The zero width non-joiner keeps them
apart. -/
def isTransparent (c : Char) : Bool :=
  c ≠ '\u200c' && (Joining.of c = .extender || Joining.of c = .joiner)

end Joining

/-- How far a run of joined pictographs has come. -/
inductive Picture where
  | absent
  /-- A pictograph and its extenders. -/
  | shown
  /-- A joiner after those. -/
  | joined
  deriving DecidableEq, Inhabited

/-- The end of a text, as far as it matters for the next character. -/
structure Edge where
  /-- What the last character does; a text begins as after a control. -/
  last : Joining := .control
  /-- Whether a half of a flag waits for the other. -/
  halfFlag : Bool := false
  picture : Picture := .absent
  /-- Whether a linker has come since the last consonant, if only marks have come since. -/
  linked : Option Bool := none
  deriving DecidableEq, Inhabited

namespace Edge

/-- The end of the text after one more character. -/
def next (e : Edge) (c : Char) : Edge :=
  let joining := Joining.of c
  { last := joining
    halfFlag := joining = .regional && !e.halfFlag
    picture := match joining, e.picture with
      | .pictograph, _ => .shown
      | .extender, .shown => .shown
      | .joiner, .shown => .joined
      | _, _ => .absent
    linked :=
      if joining = .consonant then some false
      else if Joining.isLinker c then e.linked.map fun _ => true
      else if Joining.isTransparent c then e.linked
      else none }

/-- Whether a character belongs to the same sign as the last one. -/
def joins (e : Edge) (c : Char) : Bool :=
  match e.last, Joining.of c with
  | .carriageReturn, .lineFeed => true
  | .control, _ | .carriageReturn, _ | .lineFeed, _ => false
  | _, .control | _, .carriageReturn | _, .lineFeed => false
  | .initial, .initial | .initial, .vowel => true
  | .initial, .openSyllable | .initial, .closedSyllable => true
  | .openSyllable, .vowel | .openSyllable, .final | .vowel, .vowel | .vowel, .final => true
  | .closedSyllable, .final | .final, .final => true
  | _, .extender | _, .joiner | _, .spacer => true
  | .leader, _ => true
  | _, .consonant => e.linked = some true
  | _, .pictograph => e.picture = .joined
  | _, .regional => e.halfFlag
  | _, _ => false

end Edge

end Catena.Text
