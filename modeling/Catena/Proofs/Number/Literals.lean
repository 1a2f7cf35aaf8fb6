import Catena.Proofs.Number.Wholes

/-!
# Numbers read back

Whatever the text of a finite number looks like, it is a numeral (`Numeral`): digits, with a point
among them or without, behind a minus or none. A numeral is a decimal literal, and the one that a
number is written as rounds to this number again (`Number.numeral_display`); only zero has two signs
and one text.

Reading a literal never gives the undefined value, so a literal that does not overflow is finite
(`exists_finite`).
-/

namespace Catena

open Float.Model Float.Model.UnpackedFloat Rounding Decimal

/-! ## Numerals -/

/-- Digits with a point or without, behind a minus or none, and the decimal that they write. -/
inductive Numeral : List Char → Decimal → Prop
  | whole (negative : Bool) {ws : List Char} (hne : ws ≠ []) (hws : ∀ c ∈ ws, c.isDigit) :
      Numeral ((Number.sign negative).toList ++ ws) ⟨negative, ofDigits ws, 0⟩
  | point (negative : Bool) {ws fs : List Char} (hne : ws ≠ []) (hws : ∀ c ∈ ws, c.isDigit)
      (hfs : ∀ c ∈ fs, c.isDigit) :
      Numeral ((Number.sign negative).toList ++ (ws ++ '.' :: fs))
        ⟨negative, ofDigits (ws ++ fs), -fs.length⟩

theorem splitSign_digits (negative : Bool) {ws : List Char} (hne : ws ≠ [])
    (hws : ∀ c ∈ ws, c.isDigit) (rest : List Char) :
    splitSign ((Number.sign negative).toList ++ (ws ++ rest)) = (negative, ws ++ rest) := by
  cases negative with
  | true => rfl
  | false =>
    obtain ⟨c, cs, rfl⟩ := List.exists_cons_of_ne_nil hne
    have hdigit : c.isDigit := hws c (by simp)
    have hminus : c ≠ '-' := by rintro rfl; simp at hdigit
    have hplus : c ≠ '+' := by rintro rfl; simp at hdigit
    simp [Number.sign, splitSign, hminus, hplus]

theorem Numeral.parse? {text : List Char} {d : Decimal} (h : Numeral text d) :
    Decimal.parse? text = some d := by
  cases h with
  | @whole negative ws hne hws =>
    have hsign := splitSign_digits negative hne hws []
    rw [List.append_nil] at hsign
    rw [Decimal.parse?, hsign]
    simp [List.takeWhile_eq_self_iff.2 hws, List.dropWhile_eq_nil_iff.2 hws, splitFraction,
      parseExponent?, hne]
  | @point negative ws fs hne hws hfs =>
    rw [Decimal.parse?, splitSign_digits negative hne hws]
    simp [List.takeWhile_append_of_pos hws, List.dropWhile_append_of_pos hws, splitFraction,
      List.takeWhile_eq_self_iff.2 hfs, List.dropWhile_eq_nil_iff.2 hfs, parseExponent?, hne]

theorem Numeral.chars {text : List Char} {d : Decimal} (h : Numeral text d) :
    text ≠ [] ∧ ∀ c ∈ text, c.isDigit ∨ c = '-' ∨ c = '.' := by
  have hsign (negative : Bool) : ∀ c ∈ (Number.sign negative).toList, c = '-' := by
    cases negative <;> simp [Number.sign]
  cases h with
  | whole negative hne hws =>
    refine ⟨by simp [hne], fun c hc => ?_⟩
    rcases List.mem_append.1 hc with hc | hc
    · exact .inr (.inl (hsign negative c hc))
    · exact .inl (hws c hc)
  | point negative hne hws hfs =>
    refine ⟨by simp, fun c hc => ?_⟩
    simp only [List.mem_append, List.mem_cons] at hc
    rcases hc with hc | hc | rfl | hc
    · exact .inr (.inl (hsign negative c hc))
    · exact .inl (hws c hc)
    · exact .inr (.inr rfl)
    · exact .inl (hfs c hc)

/-! ## The digits of a number -/

theorem isDigit_toDigits (n : ℕ) : ∀ c ∈ Nat.toDigits 10 n, c.isDigit :=
  fun _ hc => Nat.isDigit_of_mem_toDigits (by decide) (by decide) hc

theorem ofDigits_toDigits (n : ℕ) : ofDigits (Nat.toDigits 10 n) = n :=
  Nat.ofDigitChars_ten_toDigits

theorem isDigit_replicate (n : ℕ) : ∀ c ∈ List.replicate n '0', c.isDigit := by
  intro c hc
  rw [List.eq_of_mem_replicate hc]
  decide

theorem ofDigits_append_zeros (ds : List Char) (n : ℕ) :
    ofDigits (ds ++ List.replicate n '0') = 10 ^ n * ofDigits ds :=
  (Nat.ofDigitChars_append 0).trans Nat.ofDigitChars_replicate_zero

theorem ofDigits_zeros_append (n : ℕ) (ds : List Char) :
    ofDigits (List.replicate n '0' ++ ds) = ofDigits ds := by
  have h : Nat.ofDigitChars 10 (List.replicate n '0' ++ ds) 0 = Nat.ofDigitChars 10 ds 0 := by
    rw [Nat.ofDigitChars_append, Nat.ofDigitChars_replicate_zero, mul_zero]
  exact h

/-- Digits with the point put in write the number that the digits and the exponent stand for. -/
theorem numeral_place (negative : Bool) (digits : ℕ) (exponent : ℤ) :
    ∃ d, Numeral (Number.sign negative ++ Number.place digits exponent).toList d ∧
      d.negative = negative ∧ (d.digits : ℚ) * 10 ^ d.exponent = digits * 10 ^ exponent := by
  have hds := isDigit_toDigits digits
  have hvalue := ofDigits_toDigits digits
  have hne : Nat.toDigits 10 digits ≠ [] := Nat.toDigits_ne_nil
  rw [String.toList_append, Number.place]
  generalize Nat.toDigits 10 digits = ds at hds hvalue hne
  dsimp only
  split_ifs with hexponent hplaces
  -- the digits and zeros for the exponent
  · obtain ⟨n, rfl⟩ := Int.eq_ofNat_of_zero_le hexponent
    rw [String.toList_ofList]
    refine ⟨_, .whole negative (by simp [hne]) ?_, rfl, ?_⟩
    · intro c hc
      rcases List.mem_append.1 hc with hc | hc
      exacts [hds c hc, isDigit_replicate _ c hc]
    · simp only [Int.toNat_natCast, ofDigits_append_zeros, hvalue]
      push_cast
      rw [zpow_natCast]
      ring
  -- the point between two digits
  · rw [String.toList_ofList]
    refine ⟨_, .point negative ?_ ?_ ?_, rfl, ?_⟩
    · simp only [ne_eq, List.take_eq_nil_iff, not_or]
      exact ⟨by omega, hne⟩
    · exact fun c hc => hds c (List.mem_of_mem_take hc)
    · exact fun c hc => hds c (List.mem_of_mem_drop hc)
    · have hlength : -((ds.drop (ds.length - exponent.natAbs)).length : ℤ) = exponent := by
        rw [List.length_drop]
        omega
      simp only [List.take_append_drop, hvalue, hlength]
  -- the point before all digits
  · rw [String.toList_ofList]
    set zeros := List.replicate (exponent.natAbs - ds.length) '0'
    have hfraction : ∀ c ∈ zeros ++ ds, c.isDigit := by
      intro c hc
      rcases List.mem_append.1 hc with hc | hc
      exacts [isDigit_replicate _ c hc, hds c hc]
    have hzeros : ofDigits (['0'] ++ (zeros ++ ds)) = digits :=
      (ofDigits_zeros_append 1 _).trans ((ofDigits_zeros_append _ ds).trans hvalue)
    have hlength : -((zeros ++ ds).length : ℤ) = exponent := by
      simp only [zeros, List.length_append, List.length_replicate]
      omega
    have hnumeral := Numeral.point negative (List.cons_ne_nil '0' []) (isDigit_replicate 1) hfraction
    rw [hzeros, hlength] at hnumeral
    exact ⟨_, hnumeral, rfl, rfl⟩

/-! ## Numbers and their numerals -/

theorem toFloat_beq {x : Float} {negative : Bool} {m : ℕ} {e : ℤ} (h : Canonical m e)
    (hx : Binary.ofFloat x = .finite negative m e) {d : Decimal} (hd : d.negative = negative)
    (hmagnitude : magnitude d.digits d.exponent = double h) : (x == d.toFloat) = true := by
  rw [Binary.ofFloat_eq] at hx
  have hdouble : (double h).toModel.unpack = .finite .positive m e h.pos :=
    Binary.unpack_pack .positive h
  rw [toFloat, hmagnitude, hd]
  cases negative with
  | false =>
    have hunpack := Binary.eq_finite_of_ofUnpacked (s := .positive) h.pos hx
    exact beq_of_unpack_eq hunpack hdouble
  | true =>
    have hunpack := Binary.eq_finite_of_ofUnpacked (s := .negative) h.pos hx
    refine beq_of_unpack_eq hunpack ?_
    change (Float.Model.pack (double h).toModel.unpack.neg).unpack = _
    rw [hdouble]
    exact Binary.unpack_pack .negative h

/-- A double without a fraction is the whole number before its point. -/
theorem magnitude_wholePart {m : ℕ} {e : ℤ} (h : Canonical m e)
    (hwhole : Binary.isWhole m e = true) :
    0 < Binary.wholePart m e ∧ magnitude (Binary.wholePart m e) 0 = double h := by
  have hvalue := Binary.cast_wholePart hwhole
  have hpos : 0 < Binary.wholePart m e := by
    have : (0 : ℚ) < m * 2 ^ e := mul_pos (Nat.cast_pos.2 h.pos) (by positivity)
    rw [← hvalue] at this
    exact_mod_cast this
  refine ⟨hpos, ?_⟩
  rw [magnitude_eq hpos, zpow_zero, mul_one, hvalue]
  apply rounded_eq h
  rw [← hvalue]
  simpa using hpos

/-- **The text of a finite number reads back.** -/
theorem Number.numeral_display {x : Float} {negative : Bool} {m : ℕ} {e : ℤ}
    (hx : Binary.ofFloat x = .finite negative m e) :
    ∃ d, Numeral (Number.display x).toList d ∧ (x == d.toFloat) = true := by
  rcases Nat.eq_zero_or_pos m with rfl | hm
  · have hdisplay : Number.display x = "0" := by
      simp [Number.display, hx, Binary.isWhole, Binary.wholePart, Number.integerBound, Number.sign]
    rw [hdisplay]
    exact ⟨_, .whole false (List.cons_ne_nil '0' []) (isDigit_replicate 1), beq_zero hx⟩
  have hcanonical := Binary.canonical_of_ofFloat hx hm
  rw [Number.display, hx]
  dsimp only
  split_ifs with hwhole
  · rw [Bool.and_eq_true] at hwhole
    obtain ⟨hpos, hmagnitude⟩ := magnitude_wholePart hcanonical hwhole.1
    have hsign : (negative && Binary.wholePart m e != 0) = negative := by simp [hpos.ne']
    rw [hsign, String.toList_append, String.toList_ofList]
    refine ⟨_, .whole negative Nat.toDigits_ne_nil (isDigit_toDigits _), ?_⟩
    apply toFloat_beq hcanonical hx rfl
    rw [ofDigits_toDigits, hmagnitude]
  · rw [Number.positional, Number.write, hx]
    dsimp only
    rw [if_neg hm.ne', abs_eq_double hcanonical hx]
    have hshortest := magnitude_shortest hcanonical
    obtain ⟨d, hnumeral, hd, hvalue⟩ := numeral_place negative
      (shortest (double hcanonical) m e).1 (shortest (double hcanonical) m e).2
    refine ⟨d, hnumeral, toFloat_beq hcanonical hx hd ?_⟩
    rw [magnitude_congr (pos_of_magnitude hcanonical hshortest) hvalue, hshortest]

/-! ## Literals are numbers -/

theorem unpack_magnitude_ne (digits : ℕ) (exponent : ℤ) :
    (magnitude digits exponent).toModel.unpack ≠ .notANumber := by
  have hzero : (0 : Float).toModel.unpack = .zero .positive := rfl
  have hinfinity : infinity.toModel.unpack = .infinity .positive := rfl
  rcases Nat.eq_zero_or_pos digits with rfl | hpos
  · simp [magnitude_zero, hzero]
  · rw [magnitude_eq hpos, rounded]
    split_ifs
    · simp [hzero]
    · simp [hinfinity]
    · exact unpack_pack_ne (nearest_ne _)

/-- A literal that does not overflow is finite. -/
theorem exists_finite {d : Decimal} (h : d.toFloat.isInf = false) :
    ∃ negative m e, Binary.ofFloat d.toFloat = .finite negative m e := by
  have hnumber : d.toFloat.toModel.unpack ≠ .notANumber := by
    rw [toFloat]
    split_ifs
    · refine unpack_pack_ne ?_
      have := unpack_magnitude_ne d.digits d.exponent
      cases hu : (magnitude d.digits d.exponent).toModel.unpack <;> simp_all [UnpackedFloat.neg]
    · exact unpack_magnitude_ne d.digits d.exponent
  change d.toFloat.toModel.unpack.isInf = false at h
  rw [Binary.ofFloat_eq]
  cases hu : d.toFloat.toModel.unpack with
  | notANumber => exact absurd hu hnumber
  | infinity s => simp [hu, UnpackedFloat.isInf] at h
  | zero s => exact ⟨_, _, _, rfl⟩
  | finite s m e _ => exact ⟨_, _, _, rfl⟩

end Catena
