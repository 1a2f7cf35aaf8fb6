import Catena.Program.Reading
import Mathlib

/-!
# The grammar of numbers

The decimal literals are a regular language (`Grammar.literal`), and so are the texts that mean a
double at all (`Grammar.float`), to which the names of the infinities and of the undefined value
belong. What is read as a decimal is a decimal literal, and nothing else is (`Grammar.mem_literal`);
what means a double is what the larger grammar has (`Grammar.mem_float`).

A look at the first characters tells the two apart (`Grammar.looksDecimal_of_mem_literal`,
`Grammar.not_looksDecimal`), so a word that is no other literal is a number just when it is a
decimal one (`Datum.number_iff_mem_literal`).
-/

namespace Catena

open RegularExpression

namespace Grammar

/-! ## The grammar -/

/-- One of some characters. -/
def oneOf (cs : List Char) : RegularExpression Char := (cs.map char).sum

/-- Nothing, or what `r` matches. -/
def optional (r : RegularExpression Char) : RegularExpression Char := 1 + r

/-- A plus or a minus. -/
def sign : RegularExpression Char := oneOf ['+', '-']

/-- A decimal digit. -/
def digit : RegularExpression Char := oneOf ['0', '1', '2', '3', '4', '5', '6', '7', '8', '9']

/-- One digit or more. -/
def digits : RegularExpression Char := digit * star digit

/-- Digits, with a point behind, among or before them or without. -/
def significand : RegularExpression Char :=
  digits + digits * char '.' * star digit + char '.' * digits

/-- A power of ten by which the digits are multiplied. -/
def exponent : RegularExpression Char := oneOf ['e', 'E'] * (optional sign * digits)

/-- A decimal without a sign. -/
def unsigned : RegularExpression Char := significand * optional exponent

/-- The decimal literals. -/
def literal : RegularExpression Char := optional sign * unsigned

/-- A name, in letters of either case. -/
def anyCase (name : List Char) : RegularExpression Char :=
  (name.map fun c => oneOf [c, c.toUpper]).prod

/-- The names of an infinity and of the undefined value. -/
def named : RegularExpression Char :=
  anyCase ['i', 'n', 'f'] + anyCase ['i', 'n', 'f', 'i', 'n', 'i', 't', 'y'] +
    anyCase ['n', 'a', 'n']

/-- The texts that mean a double. -/
def float : RegularExpression Char := optional sign * (named + unsigned)

/-! ## Characters and digits -/

theorem mem_oneOf {cs x : List Char} : x ∈ (oneOf cs).matches' ↔ ∃ c ∈ cs, x = [c] := by
  unfold oneOf
  induction cs with
  | nil => simp [Language.notMem_zero]
  | cons c cs ih =>
    rw [List.map_cons, List.sum_cons, matches'_add, Language.mem_add, ih, matches'_char,
      List.exists_mem_cons_iff]
    rfl

theorem mem_optional {r : RegularExpression Char} {x : List Char} :
    x ∈ (optional r).matches' ↔ x = [] ∨ x ∈ r.matches' := Iff.rfl

theorem isDigit_iff_mem {c : Char} :
    c.isDigit ↔ c ∈ ['0', '1', '2', '3', '4', '5', '6', '7', '8', '9'] := by
  have hall : ∀ n < 58, 48 ≤ n → Char.ofNat n ∈
      ['0', '1', '2', '3', '4', '5', '6', '7', '8', '9'] := by decide
  constructor
  · intro h
    have hbounds : 48 ≤ c.toNat ∧ c.toNat ≤ 57 := by
      simpa [Char.isDigit, UInt32.le_iff_toNat_le] using h
    rw [← Char.ofNat_toNat c]
    exact hall _ (Nat.lt_succ_of_le hbounds.2) hbounds.1
  · have hall : ['0', '1', '2', '3', '4', '5', '6', '7', '8', '9'].all Char.isDigit := by decide
    exact List.all_eq_true.1 hall c

theorem ne_sign_of_isDigit {c : Char} (h : c.isDigit) : c ≠ '+' ∧ c ≠ '-' := by
  constructor <;> (rintro rfl; simp at h)

theorem mem_digit {x : List Char} : x ∈ digit.matches' ↔ ∃ c : Char, c.isDigit ∧ x = [c] := by
  rw [digit, mem_oneOf]
  simp only [isDigit_iff_mem]

theorem mem_star_digit {x : List Char} : x ∈ (star digit).matches' ↔ ∀ c ∈ x, c.isDigit := by
  rw [matches'_star, Language.mem_kstar]
  constructor
  · rintro ⟨pieces, rfl, hpieces⟩ c hc
    obtain ⟨piece, hpiece, hc⟩ := List.mem_flatten.1 hc
    obtain ⟨d, hd, rfl⟩ := mem_digit.1 (hpieces piece hpiece)
    rwa [List.mem_singleton.1 hc]
  · intro h
    refine ⟨x.map fun c => [c], by simp [← List.flatMap_def], fun piece hpiece => ?_⟩
    obtain ⟨c, hc, rfl⟩ := List.mem_map.1 hpiece
    exact mem_digit.2 ⟨c, h c hc, rfl⟩

theorem mem_digits {x : List Char} : x ∈ digits.matches' ↔ x ≠ [] ∧ ∀ c ∈ x, c.isDigit := by
  rw [digits, matches'_mul, Language.mem_mul]
  constructor
  · rintro ⟨first, hfirst, rest, hrest, rfl⟩
    obtain ⟨c, hc, rfl⟩ := mem_digit.1 hfirst
    exact ⟨by simp, List.forall_mem_cons.2 ⟨hc, mem_star_digit.1 hrest⟩⟩
  · rintro ⟨hne, hx⟩
    obtain ⟨c, cs, rfl⟩ := List.exists_cons_of_ne_nil hne
    obtain ⟨hc, hcs⟩ := List.forall_mem_cons.1 hx
    exact ⟨[c], mem_digit.2 ⟨c, hc, rfl⟩, cs, mem_star_digit.2 hcs, rfl⟩

/-- Digits before the point and digits after it, not both missing; with none after it, the point
can be missing, too. -/
theorem mem_significand {x : List Char} :
    x ∈ significand.matches' ↔ ∃ whole fraction : List Char, (∀ c ∈ whole, c.isDigit) ∧
      (∀ c ∈ fraction, c.isDigit) ∧ (whole ≠ [] ∨ fraction ≠ []) ∧
        (x = whole ++ '.' :: fraction ∨ x = whole ∧ fraction = []) := by
  simp only [significand, matches'_add, matches'_mul, matches'_char, Language.mem_add,
    Language.mem_mul, mem_digits, mem_star_digit]
  constructor
  · rintro ((⟨hne, hx⟩ | ⟨_, ⟨whole, ⟨hne, hwhole⟩, _, rfl, rfl⟩, fraction, hfraction, rfl⟩) |
      ⟨_, rfl, fraction, ⟨hne, hfraction⟩, rfl⟩)
    · exact ⟨x, [], hx, by simp, .inl hne, .inr ⟨rfl, rfl⟩⟩
    · exact ⟨whole, fraction, hwhole, hfraction, .inl hne, .inl (by simp)⟩
    · exact ⟨[], fraction, by simp, hfraction, .inr hne, .inl rfl⟩
  · rintro ⟨whole, fraction, hwhole, hfraction, hne, rfl | ⟨rfl, rfl⟩⟩
    · by_cases hempty : whole = []
      · subst hempty
        exact .inr ⟨['.'], rfl, fraction, ⟨hne.resolve_left (· rfl), hfraction⟩, rfl⟩
      · exact .inl (.inr ⟨_, ⟨whole, ⟨hempty, hwhole⟩, ['.'], rfl, rfl⟩, fraction, hfraction,
          by simp⟩)
    · exact .inl (.inl ⟨hne.resolve_right (· rfl), hwhole⟩)

/-! ## Signs -/

/-- A text is a sign, or nothing, and what follows it. -/
theorem exists_splitSign (text : List Char) :
    ∃ s ∈ (optional sign).matches', s ++ (Decimal.splitSign text).2 = text := by
  fun_cases Decimal.splitSign text with
  | case1 cs => exact ⟨['-'], mem_optional.2 (.inr (mem_oneOf.2 ⟨'-', by simp, rfl⟩)), rfl⟩
  | case2 cs => exact ⟨['+'], mem_optional.2 (.inr (mem_oneOf.2 ⟨'+', by simp, rfl⟩)), rfl⟩
  | case3 cs _ _ => exact ⟨[], mem_optional.2 (.inl rfl), rfl⟩

theorem splitSign_append {s : List Char} (hs : s ∈ (optional sign).matches') {rest : List Char}
    (hrest : ∀ c ∈ rest.head?, c ≠ '+' ∧ c ≠ '-') :
    (Decimal.splitSign (s ++ rest)).2 = rest := by
  rcases mem_optional.1 hs with rfl | hs
  · rw [List.nil_append]
    fun_cases Decimal.splitSign rest with
    | case1 cs => simp at hrest
    | case2 cs => simp at hrest
    | case3 cs _ _ => rfl
  · obtain ⟨c, hc, rfl⟩ := mem_oneOf.1 hs
    simp only [List.mem_cons, List.not_mem_nil, or_false] at hc
    rcases hc with rfl | rfl <;> rfl

/-- Where no match begins with a sign, one that may have a sign is a match without its sign. -/
theorem mem_signed {r : RegularExpression Char}
    (hr : ∀ rest ∈ r.matches', ∀ c ∈ rest.head?, c ≠ '+' ∧ c ≠ '-') {x : List Char} :
    x ∈ (optional sign * r).matches' ↔ (Decimal.splitSign x).2 ∈ r.matches' := by
  rw [matches'_mul, Language.mem_mul]
  constructor
  · rintro ⟨s, hs, rest, hrest, rfl⟩
    rwa [splitSign_append hs (hr rest hrest)]
  · intro h
    obtain ⟨s, hs, hx⟩ := exists_splitSign x
    exact ⟨s, hs, _, h, hx⟩

/-! ## Exponents -/

theorem ne_sign_digits {x : List Char} (h : x ∈ digits.matches') :
    ∀ c ∈ x.head?, c ≠ '+' ∧ c ≠ '-' :=
  fun c hc => ne_sign_of_isDigit ((mem_digits.1 h).2 c (List.mem_of_mem_head? hc))

theorem mem_exponent {c : Char} {cs : List Char} :
    c :: cs ∈ exponent.matches' ↔
      (c = 'e' ∨ c = 'E') ∧ (Decimal.splitSign cs).2 ∈ digits.matches' := by
  rw [← mem_signed fun _ h => ne_sign_digits h, exponent, matches'_mul, Language.mem_mul]
  constructor
  · rintro ⟨first, hfirst, rest, hrest, hx⟩
    obtain ⟨d, hd, rfl⟩ := mem_oneOf.1 hfirst
    obtain ⟨rfl, rfl⟩ := List.cons.inj hx
    exact ⟨by simpa using hd, hrest⟩
  · rintro ⟨hc, hrest⟩
    exact ⟨[c], mem_oneOf.2 ⟨c, by simpa using hc, rfl⟩, cs, hrest, rfl⟩

/-- What is read as an exponent is one, or nothing. -/
theorem mem_optional_exponent {x : List Char} :
    x ∈ (optional exponent).matches' ↔ (Decimal.parseExponent? x).isSome := by
  rw [mem_optional]
  cases x with
  | nil => simp [Decimal.parseExponent?]
  | cons c cs =>
    rw [mem_exponent, mem_digits, Decimal.parseExponent?]
    by_cases hc : c = 'e' ∨ c = 'E' <;> simp [hc]

theorem head_exponent {x : List Char} (h : x ∈ (optional exponent).matches') :
    ∀ c ∈ x.head?, ¬c.isDigit ∧ c ≠ '.' := by
  rcases mem_optional.1 h with rfl | h
  · simp
  · cases x with
    | nil => simp
    | cons c cs =>
      rintro _ ⟨⟩
      rcases (mem_exponent.1 h).1 with rfl | rfl <;> decide

/-! ## Decimals -/

theorem span_digits {ds rest : List Char} (hds : ∀ c ∈ ds, c.isDigit)
    (hrest : ∀ c ∈ rest.head?, ¬c.isDigit) :
    (ds ++ rest).takeWhile Char.isDigit = ds ∧ (ds ++ rest).dropWhile Char.isDigit = rest := by
  rw [List.takeWhile_append_of_pos hds, List.dropWhile_append_of_pos hds]
  cases rest with
  | nil => simp
  | cons c cs => simp [hrest c rfl]

/-- The digits of a decimal are cut off where its point and its exponent are. -/
theorem mem_unsigned {x : List Char} :
    x ∈ unsigned.matches' ↔
      (x.takeWhile Char.isDigit ≠ [] ∨
          (Decimal.splitFraction (x.dropWhile Char.isDigit)).1 ≠ []) ∧
        (Decimal.parseExponent? (Decimal.splitFraction (x.dropWhile Char.isDigit)).2).isSome := by
  rw [unsigned, matches'_mul, Language.mem_mul, ← mem_optional_exponent]
  constructor
  · rintro ⟨_, hsignificand, rest, hrest, rfl⟩
    obtain ⟨whole, fraction, hwhole, hfraction, hne, hx⟩ := mem_significand.1 hsignificand
    have hhead := head_exponent hrest
    rcases hx with rfl | ⟨rfl, rfl⟩
    · have hpoint := @span_digits whole ('.' :: (fraction ++ rest)) hwhole (by simp)
      have hspan := span_digits hfraction fun c hc => (hhead c hc).1
      rw [List.append_assoc, List.cons_append, hpoint.1, hpoint.2, Decimal.splitFraction, hspan.1,
        hspan.2]
      exact ⟨hne, hrest⟩
    · have hspan := span_digits hwhole fun c hc => (hhead c hc).1
      have hnone : Decimal.splitFraction rest = ([], rest) := by
        fun_cases Decimal.splitFraction rest with
        | case1 cs => exact absurd rfl (hhead '.' rfl).2
        | case2 => rfl
      rw [hspan.1, hspan.2, hnone]
      exact ⟨hne, hrest⟩
  · have hdigits (cs : List Char) : ∀ c ∈ cs.takeWhile Char.isDigit, c.isDigit :=
      List.all_eq_true.1 List.all_takeWhile
    have hx := x.takeWhile_append_dropWhile (p := Char.isDigit)
    generalize x.dropWhile Char.isDigit = behind at hx
    rintro ⟨hne, hrest⟩
    revert hne hrest hx
    fun_cases Decimal.splitFraction behind with
    | case1 cs =>
      intro hx hne hrest
      refine ⟨x.takeWhile Char.isDigit ++ '.' :: cs.takeWhile Char.isDigit, ?_, _, hrest, ?_⟩
      · exact mem_significand.2 ⟨_, _, hdigits x, hdigits cs, hne, .inl rfl⟩
      · rw [List.append_assoc, List.cons_append, List.takeWhile_append_dropWhile, hx]
    | case2 =>
      intro hx hne hrest
      refine ⟨x.takeWhile Char.isDigit, ?_, _, hrest, hx⟩
      exact mem_significand.2 ⟨_, [], hdigits x, by simp, hne, .inr ⟨rfl, rfl⟩⟩

theorem skipPoint_of_startsWithDigit {x : List Char} (h : Number.startsWithDigit x = true) :
    Number.skipPoint x = x := by
  fun_cases Number.skipPoint x with
  | case1 cs => cases h
  | case2 => rfl

/-- A decimal without a sign begins with a digit, or with a point and a digit. -/
theorem startsWithDigit_skipPoint {x : List Char} (h : x ∈ unsigned.matches') :
    Number.startsWithDigit (Number.skipPoint x) = true := by
  rw [unsigned, matches'_mul, Language.mem_mul] at h
  obtain ⟨_, hsignificand, rest, -, rfl⟩ := h
  obtain ⟨whole, fraction, hwhole, hfraction, hne, hx⟩ := mem_significand.1 hsignificand
  cases whole with
  | nil =>
    obtain ⟨c, cs, rfl⟩ := List.exists_cons_of_ne_nil (hne.resolve_left (· rfl))
    rcases hx with rfl | ⟨-, hempty⟩
    · exact hfraction c (by simp)
    · exact absurd hempty (List.cons_ne_nil c cs)
  | cons c cs =>
    have hstart (ds : List Char) : Number.startsWithDigit (c :: ds) = true := hwhole c (by simp)
    rcases hx with rfl | ⟨rfl, -⟩
    · exact (skipPoint_of_startsWithDigit (hstart _)).symm ▸ hstart _
    · exact (skipPoint_of_startsWithDigit (hstart _)).symm ▸ hstart _

theorem exists_head_of_startsWithDigit {x : List Char}
    (h : Number.startsWithDigit (Number.skipPoint x) = true) :
    ∃ c cs, x = c :: cs ∧ (c.isDigit ∨ c = '.') := by
  cases x with
  | nil => cases h
  | cons c cs =>
    by_cases hc : c = '.'
    · exact ⟨c, cs, rfl, .inr hc⟩
    · exact ⟨c, cs, rfl, .inl (by simpa [Number.skipPoint, Number.startsWithDigit, hc] using h)⟩

theorem ne_sign_unsigned {x : List Char} (h : x ∈ unsigned.matches') :
    ∀ c ∈ x.head?, c ≠ '+' ∧ c ≠ '-' := by
  obtain ⟨c, cs, rfl, hc⟩ := exists_head_of_startsWithDigit (startsWithDigit_skipPoint h)
  rintro _ ⟨⟩
  rcases hc with hc | rfl
  · exact ne_sign_of_isDigit hc
  · decide

/-- **What is read as a decimal is a decimal literal.** -/
theorem mem_literal {text : List Char} :
    text ∈ literal.matches' ↔ (Decimal.parse? text).isSome := by
  rw [literal, mem_signed fun _ h => ne_sign_unsigned h, mem_unsigned, Decimal.parse?]
  dsimp only
  split_ifs with hempty
  · simp_all
  · rw [Option.isSome_map, and_iff_right]
    simpa [imp_iff_not_or] using hempty

/-- A point at either end and exponents are fine, but nothing may dangle. -/
example : (∀ text ∈ ["1.", "+.5", "-2.5E-12"], text.toList ∈ literal.matches') ∧
    ∀ text ∈ ["", ".", "1e", "1e+", "1..5", "--1"], text.toList ∉ literal.matches' := by decide

/-! ## Names -/

theorem toLower_eq_iff {c d : Char} (hc : c.isLower) : d.toLower = c ↔ d = c ∨ d = c.toUpper := by
  simp only [Char.isLower, Bool.and_eq_true, decide_eq_true_eq, ge_iff_le] at hc
  simp only [Char.toLower, Char.toUpper, Char.ext_iff, UInt32.le_iff_toNat_le,
    ← UInt32.toNat_inj, Char.reduceVal, UInt32.reduceToNat] at hc ⊢
  rw [dif_pos hc]
  split <;> simp only [UInt32.toNat_add, UInt32.reduceSub, UInt32.reduceToNat] <;> omega

theorem mem_anyCase {name : List Char} (h : name.all Char.isLower) {x : List Char} :
    x ∈ (anyCase name).matches' ↔ x.map Char.toLower = name := by
  unfold anyCase
  induction name generalizing x with
  | nil => simp [matches'_epsilon, Language.mem_one]
  | cons c cs ih =>
    rw [List.all_cons, Bool.and_eq_true] at h
    obtain ⟨hc, hcs⟩ := h
    rw [List.map_cons, List.prod_cons, matches'_mul, Language.mem_mul, List.map_eq_cons_iff]
    constructor
    · rintro ⟨first, hfirst, rest, hrest, rfl⟩
      obtain ⟨d, hd, rfl⟩ := mem_oneOf.1 hfirst
      exact ⟨d, rest, rfl, (toLower_eq_iff hc).2 (by simpa using hd), (ih hcs).1 hrest⟩
    · rintro ⟨d, rest, rfl, hd, hrest⟩
      have hfirst := (toLower_eq_iff hc).1 hd
      exact ⟨[d], mem_oneOf.2 ⟨d, by simpa using hfirst, rfl⟩, rest, (ih hcs).2 hrest, rfl⟩

theorem mem_named {x : List Char} : x ∈ named.matches' ↔ (Number.named? x).isSome := by
  simp only [named, matches'_add, Language.mem_add]
  rw [mem_anyCase (by decide), mem_anyCase (by decide), mem_anyCase (by decide), Number.named?]
  split_ifs <;> simp_all

/-- A name begins with a letter. -/
theorem exists_head_named {x : List Char} (h : x ∈ named.matches') :
    ∃ c cs, x = c :: cs ∧ c ∈ ['i', 'I', 'n', 'N'] := by
  have hfirst : ∀ first rest, first.isLower → x.map Char.toLower = first :: rest →
      ∃ c cs, x = c :: cs ∧ (c = first ∨ c = first.toUpper) := by
    intro first rest hlower hx
    obtain ⟨c, cs, rfl, hc, -⟩ := List.map_eq_cons_iff.1 hx
    exact ⟨c, cs, rfl, (toLower_eq_iff hlower).1 hc⟩
  simp only [named, matches'_add, Language.mem_add] at h
  rw [mem_anyCase (by decide), mem_anyCase (by decide), mem_anyCase (by decide)] at h
  rcases h with (h | h) | h
  all_goals
    obtain ⟨c, cs, rfl, rfl | rfl⟩ := hfirst _ _ (by decide) h <;>
      exact ⟨_, cs, rfl, by decide⟩

/-- **What means a double is a decimal literal, or a name that may have a sign.** -/
theorem mem_float {text : List Char} : text ∈ float.matches' ↔ (Number.ofText? text).isSome := by
  have hunsigned : (Decimal.splitSign text).2 ∈ unsigned.matches' ↔ text ∈ literal.matches' :=
    (mem_signed fun _ h => ne_sign_unsigned h).symm
  rw [float, mem_signed, matches'_add, Language.mem_add, hunsigned, mem_literal, mem_named,
    Number.ofText?]
  · cases Decimal.parse? text <;> simp
  · rintro rest (h | h)
    · obtain ⟨c, cs, rfl, hc⟩ := exists_head_named h
      rintro _ ⟨⟩
      simp only [List.mem_cons, List.not_mem_nil, or_false] at hc
      rcases hc with rfl | rfl | rfl | rfl <;> decide
    · exact ne_sign_unsigned h

/-! ## The first characters -/

theorem looksDecimal_cons {c : Char} (hc : c ∈ ['+', '-', '.']) (rest : List Char) :
    Number.looksDecimal (c :: rest) = Number.startsWithDigit (Number.skipPoint rest) := by
  simp only [List.mem_cons, List.not_mem_nil, or_false] at hc
  rcases hc with rfl | rfl | rfl <;> rfl

/-- Decimal literals look like decimals. -/
theorem looksDecimal_of_mem_literal {text : List Char} (h : text ∈ literal.matches') :
    Number.looksDecimal text = true := by
  rw [literal, matches'_mul, Language.mem_mul] at h
  obtain ⟨s, hs, rest, hrest, rfl⟩ := h
  have hstart := startsWithDigit_skipPoint hrest
  rcases mem_optional.1 hs with rfl | hs
  · obtain ⟨c, cs, rfl, hc | rfl⟩ := exists_head_of_startsWithDigit hstart
    · simp [Number.looksDecimal, hc]
    · have hcs : Number.startsWithDigit cs = true := hstart
      rw [List.nil_append, looksDecimal_cons (by simp), skipPoint_of_startsWithDigit hcs, hcs]
  · obtain ⟨c, hc, rfl⟩ := mem_oneOf.1 hs
    have hmark : c ∈ ['+', '-', '.'] := List.mem_append_left ['.'] hc
    rw [List.singleton_append, looksDecimal_cons hmark, hstart]

/-- Names do not, with a sign or without one. -/
theorem not_looksDecimal {text : List Char} (h : text ∈ (optional sign * named).matches') :
    Number.looksDecimal text = false := by
  rw [matches'_mul, Language.mem_mul] at h
  obtain ⟨s, hs, rest, hrest, rfl⟩ := h
  obtain ⟨c, cs, rfl, hc⟩ := exists_head_named hrest
  simp only [List.mem_cons, List.not_mem_nil, or_false] at hc
  rcases mem_optional.1 hs with rfl | hs
  · rcases hc with rfl | rfl | rfl | rfl <;> rfl
  · obtain ⟨mark, hmark, rfl⟩ := mem_oneOf.1 hs
    rw [List.singleton_append, looksDecimal_cons (List.mem_append_left ['.'] hmark)]
    rcases hc with rfl | rfl | rfl | rfl <;> rfl

/-- Of the texts that mean a double, the decimal literals look like decimals. -/
theorem looksDecimal_iff {text : List Char} (h : text ∈ float.matches') :
    Number.looksDecimal text = true ↔ text ∈ literal.matches' := by
  refine ⟨fun hlooks => ?_, looksDecimal_of_mem_literal⟩
  rw [float, matches'_mul, matches'_add, mul_add] at h
  rcases h with h | h
  · rw [not_looksDecimal h] at hlooks
    cases hlooks
  · exact h

end Grammar

/-! ## Words -/

/-- A literal writes a number just when it writes a decimal. -/
theorem Number.literal?_eq (text : List Char) :
    literal? text = (Decimal.parse? text).map Decimal.toFloat := by
  unfold literal?
  by_cases hmem : text ∈ Grammar.literal.matches'
  · obtain ⟨d, hd⟩ := Option.isSome_iff_exists.1 (Grammar.mem_literal.1 hmem)
    rw [if_pos (Grammar.looksDecimal_of_mem_literal hmem), ofText?, hd]
    rfl
  · have hnone : Decimal.parse? text = none := by
      rwa [Grammar.mem_literal, Option.not_isSome_iff_eq_none] at hmem
    rw [hnone, Option.map_none, ite_eq_right_iff]
    intro hlooks
    -- what looks like a decimal and is none does not mean a double
    by_contra hsome
    have hfloat := Grammar.mem_float.2 (Option.isSome_iff_ne_none.2 hsome)
    exact hmem ((Grammar.looksDecimal_iff hfloat).1 hlooks)

/-- **Numbers are the decimal literals.** A word that is no name of a constant and no symbol is read
as a number just when it is a decimal literal, and stands for itself otherwise; of all texts that
mean a double, a look at the first characters lets the decimal literals through and no others. -/
theorem Datum.number_iff_mem_literal {chars : List Char}
    (hconstant : String.ofList chars ∉ ["true", "false", "nil"])
    (hsymbol : ∀ name, chars = ':' :: name → name = []) :
    ((∃ x, ofWord chars = .number x) ↔ chars ∈ Grammar.literal.matches') ∧
      (chars ∉ Grammar.literal.matches' → ofWord chars = .word (String.ofList chars)) ∧
      (chars ∈ Grammar.float.matches' →
        (Number.looksDecimal chars = true ↔ chars ∈ Grammar.literal.matches')) := by
  have hword : ofWord chars =
      ((Number.literal? chars).map number).getD (.word (String.ofList chars)) := by
    unfold ofWord
    rw [if_neg (by rintro rfl; exact hconstant (by decide)),
      if_neg (by rintro rfl; exact hconstant (by decide)),
      if_neg (by rintro rfl; exact hconstant (by decide))]
    split
    · exact absurd (hsymbol _ rfl) (List.cons_ne_nil _ _)
    · cases Number.literal? chars <;> rfl
  rw [hword, Number.literal?_eq, Grammar.mem_literal]
  refine ⟨?_, ?_, fun h => (Grammar.looksDecimal_iff h).trans Grammar.mem_literal⟩
  · cases Decimal.parse? chars <;> simp
  · cases Decimal.parse? chars <;> simp

/-- A decimal with a point in front, and a name with a sign, which means a double. -/
theorem Datum.number_iff_mem_literal_signed :
    (∃ x, ofWord "-.5e+3".toList = .number x) ∧
      (Number.ofText? "-Infinity".toList).isSome ∧
        ofWord "-Infinity".toList = .word "-Infinity" :=
  ⟨(number_iff_mem_literal (by decide) (by simp)).1.2 (by decide), Grammar.mem_float.1 (by decide),
    (number_iff_mem_literal (by decide) (by simp)).2.1 (by decide)⟩

end Catena
