import Mathlib

/-!
# Rounding to a double

The arithmetic of doubles works on mantissas and exponents, and carries along two bits that say how
far the exact result is above its mantissa. Here every positive rational has a rounding of its own
(`nearest`), and the operations round the exact result in this sense: the product and the quotient
of two doubles (`mul_eq`, `div_eq`) do.

A rational that is closer to a double than `2^-54` of it rounds to this double (`nearest_eq`). That
is a quarter of the distance to the next double where the distances change, at the powers of two,
and less everywhere else.
-/

namespace Catena.Rounding

open Float.Model Float.Model.UnpackedFloat

/-! ## The bits behind the mantissa -/

/-- The whole part of a number, and what the rest of it says about rounding. -/
def extend (q : ℚ) : ExtendedMantissa :=
  ⟨⌊q⌋₊, 1 / 2 ≤ Int.fract q, Int.fract q ≠ 0 ∧ Int.fract q ≠ 1 / 2⟩

theorem extend_add (m : ℕ) {f : ℚ} (h₀ : 0 ≤ f) (h₁ : f < 1) :
    extend (m + f) = ⟨m, 1 / 2 ≤ f, f ≠ 0 ∧ f ≠ 1 / 2⟩ := by
  have hfloor : ⌊(m : ℚ) + f⌋₊ = m := by
    rw [Nat.floor_eq_iff (by positivity)]
    constructor <;> linarith
  have hfract : Int.fract ((m : ℚ) + f) = f := by
    rw [Int.fract_natCast_add, Int.fract_eq_self.2 ⟨h₀, h₁⟩]
  simp [extend, hfloor, hfract]

/-- Every number not below zero is a whole number and a rest below one. -/
theorem exists_add_eq {q : ℚ} (hq : 0 ≤ q) : ∃ (m : ℕ) (f : ℚ), 0 ≤ f ∧ f < 1 ∧ q = m + f := by
  refine ⟨⌊q⌋₊, q - ⌊q⌋₊, ?_, ?_, by ring⟩
  · linarith [Nat.floor_le hq]
  · linarith [Nat.lt_floor_add_one q]

theorem extend_natCast (m : ℕ) : extend m = .ofMantissaAndAccuracy m .exact := by
  have h := extend_add m le_rfl (zero_lt_one' ℚ)
  norm_num at h
  exact h

/-- The accuracy of a division is that of the exact quotient. -/
theorem extend_div (a : ℕ) {b : ℕ} (hb : 0 < b) :
    extend (a / b) = .ofMantissaAndAccuracy (a / b) (accuracyOfFraction (a % b) b) := by
  have hb' : (0 : ℚ) < b := by exact_mod_cast hb
  have hrest : ((a % b : ℕ) : ℚ) / b < 1 := by
    rw [div_lt_one hb']
    exact_mod_cast Nat.mod_lt a hb
  have hsplit : (a : ℚ) / b = (a / b : ℕ) + ((a % b : ℕ) : ℚ) / b := by
    have h : (a : ℚ) = b * (a / b : ℕ) + (a % b : ℕ) := by exact_mod_cast (Nat.div_add_mod a b).symm
    field_simp
    linarith
  rw [hsplit, extend_add _ (by positivity) hrest, accuracyOfFraction]
  have hzero : ((a % b : ℕ) : ℚ) / b = 0 ↔ a % b = 0 := by
    rw [div_eq_zero_iff]
    simp [hb.ne']
  have hhalf : ((a % b : ℕ) : ℚ) / b = 1 / 2 ↔ 2 * (a % b) = b := by
    rw [div_eq_div_iff hb'.ne' two_ne_zero, one_mul, mul_comm]
    exact_mod_cast Iff.rfl
  have hle : 1 / 2 ≤ ((a % b : ℕ) : ℚ) / b ↔ b ≤ 2 * (a % b) := by
    rw [div_le_div_iff₀ two_pos hb', one_mul, mul_comm]
    exact_mod_cast Iff.rfl
  simp only [hle, ne_eq, hzero, hhalf]
  by_cases h : a % b = 0
  · simp [h, ExtendedMantissa.ofMantissaAndAccuracy, hb.ne']
  · simp only [h, not_false_eq_true, true_and, if_false]
    rcases lt_trichotomy (2 * (a % b)) b with hlt | heq | hgt
    · rw [Nat.compare_eq_lt.2 hlt]
      simp [ExtendedMantissa.ofMantissaAndAccuracy, hlt, hlt.ne]
    · rw [Nat.compare_eq_eq.2 heq]
      simp [ExtendedMantissa.ofMantissaAndAccuracy, heq]
    · rw [Nat.compare_eq_gt.2 hgt]
      simp [ExtendedMantissa.ofMantissaAndAccuracy, hgt.le, hgt.ne']

theorem extend_half {q : ℚ} (hq : 0 ≤ q) : extend (q / 2) = (extend q).shiftRightOne := by
  obtain ⟨m, f, h₀, h₁, rfl⟩ := exists_add_eq hq
  -- one of the two bits is set exactly if something is left
  have hbits : (decide (1 / 2 ≤ f) || decide (f ≠ 0 ∧ f ≠ 1 / 2)) = decide (f ≠ 0) := by
    rcases eq_or_ne f 0 with rfl | hzero
    · norm_num
    · rcases eq_or_ne f (1 / 2) with rfl | hhalf <;> simp [-one_div, *]
  have hm : (m : ℚ) = 2 * (m / 2 : ℕ) + (m % 2 : ℕ) := by exact_mod_cast (Nat.div_add_mod m 2).symm
  rw [extend_add m h₀ h₁, ExtendedMantissa.shiftRightOne, hbits]
  rcases Nat.mod_two_eq_zero_or_one m with h | h
  · have hhalf : ((m : ℚ) + f) / 2 = (m / 2 : ℕ) + f / 2 := by
      rw [hm, h]
      push_cast
      ring
    have hlt : f / 2 < 1 / 2 := by linarith
    rw [hhalf, extend_add _ (by linarith) (by linarith)]
    simp [-one_div, h, hlt.ne, hlt.not_ge]
  · have hhalf : ((m : ℚ) + f) / 2 = (m / 2 : ℕ) + (1 + f) / 2 := by
      rw [hm, h]
      push_cast
      ring
    have hle : 1 / 2 ≤ (1 + f) / 2 := by linarith
    have hne : (1 + f) / 2 ≠ 0 := by linarith
    have heq : (1 + f) / 2 = 1 / 2 ↔ f = 0 := by
      constructor <;> intro hf <;> linarith
    rw [hhalf, extend_add _ (by linarith) (by linarith)]
    simp [-one_div, h, hle, hne, heq]

/-- Shifting the mantissa to the right divides by a power of two. -/
theorem extend_shift {q : ℚ} (hq : 0 ≤ q) (n : ℕ) : extend (q / 2 ^ n) = extend q >>> n := by
  induction n with
  | zero => simp [HShiftRight.hShiftRight, Nat.repeat]
  | succ n ih =>
    have hstep : q / 2 ^ (n + 1) = q / 2 ^ n / 2 := by rw [pow_succ, div_mul_eq_div_div]
    rw [hstep, extend_half (by positivity), ih]
    rfl

/-- What is closer to a whole number than a half is rounded to it. -/
theorem roundedMantissa_extend {q : ℚ} {n : ℕ} (hq : 0 ≤ q) (h : |q - n| < 1 / 2) :
    (extend q).roundedMantissa = n := by
  obtain ⟨m, f, h₀, h₁, rfl⟩ := exists_add_eq hq
  obtain ⟨hlow, hhigh⟩ := abs_lt.1 h
  rw [extend_add m h₀ h₁]
  rcases lt_or_ge f (1 / 2) with hf | hf
  -- the whole part is next
  · have hn : m = n := by
      have h₁ : (m : ℚ) < n + 1 := by linarith
      have h₂ : (n : ℚ) < m + 1 := by linarith
      norm_cast at h₁ h₂
      omega
    subst hn
    rcases eq_or_ne f 0 with rfl | hzero
    · norm_num
      rfl
    · simp [-one_div, hf.not_ge, hzero, hf.ne]
      rfl
  · have hn : m + 1 = n := by
      have h₁ : (m : ℚ) < n := by linarith
      have h₂ : (n : ℚ) < m + 2 := by linarith
      norm_cast at h₁ h₂
      omega
    subst hn
    have hne : f ≠ 1 / 2 := by
      rintro rfl
      push_cast at hlow
      linarith
    have hzero : f ≠ 0 := by linarith
    simp [-one_div, hf, hne, hzero]
    rfl

/-! ## The nearest double -/

/-- The exponent of the last place of the doubles around `v`. -/
def lastPlace (v : ℚ) : ℤ := max (Int.log 2 v - 52) (-1074)

/-- A mantissa that was rounded at the place `e`; rounding up to the next power of two makes it one
place too long. -/
def carried (sign : Sign) (m : ℕ) (e : ℤ) : UnpackedFloat :=
  let shifted := shiftToTargetExponent .binary64 m e .exact
  if h : shifted.1.mantissa = 0 then .zero sign
  else .finite sign shifted.1.mantissa shifted.2 (Nat.pos_of_ne_zero h)

/-- The positive rational `v` rounded to a double, a half to the even one. -/
def nearest (v : ℚ) : UnpackedFloat :=
  carried .positive (extend (v / 2 ^ lastPlace v)).roundedMantissa (lastPlace v)

theorem nearest_ne (v : ℚ) : nearest v ≠ .notANumber := by
  rw [nearest, carried]
  split_ifs <;> simp

theorem targetExponent_eq (m : ℕ) (e : ℤ) :
    Format.binary64.targetExponent (totalExponent m e) = max (m.log2 + e - 52) (-1074) := by
  change max ((m.log2 : ℤ) + 1 + e - 53) (-1074) = _
  omega

theorem log_eq_of_le_of_lt {b : ℕ} (hb : 1 < b) {v : ℚ} (hv : 0 < v) {k : ℤ}
    (hlow : (b : ℚ) ^ k ≤ v) (hhigh : v < (b : ℚ) ^ (k + 1)) : Int.log b v = k := by
  have h₁ := (Int.zpow_le_iff_le_log hb hv).1 hlow
  have h₂ := (Int.lt_zpow_iff_log_lt hb hv).1 hhigh
  omega

theorem log_eq {v : ℚ} (hv : 0 < v) {m : ℕ} {e : ℤ} (hm : 0 < m) (h : ⌊v / 2 ^ e⌋₊ = m) :
    Int.log 2 v = m.log2 + e := by
  have hpow : (0 : ℚ) < 2 ^ e := by positivity
  have hq : 0 ≤ v / 2 ^ e := by positivity
  obtain ⟨hlow, hhigh⟩ := (Nat.floor_eq_iff hq).1 h
  rw [le_div_iff₀ hpow] at hlow
  rw [div_lt_iff₀ hpow] at hhigh
  apply log_eq_of_le_of_lt one_lt_two hv
  · calc ((2 : ℕ) : ℚ) ^ ((m.log2 : ℤ) + e) = (2 ^ m.log2 : ℕ) * 2 ^ e := by
          push_cast
          rw [zpow_add₀ two_ne_zero, zpow_natCast]
      _ ≤ m * 2 ^ e := by
          gcongr
          exact_mod_cast Nat.log2_self_le hm.ne'
      _ ≤ v := hlow
  · calc v < (m + 1) * 2 ^ e := hhigh
      _ ≤ (2 ^ (m.log2 + 1) : ℕ) * 2 ^ e := by
          gcongr
          exact_mod_cast Nat.lt_log2_self
      _ = ((2 : ℕ) : ℚ) ^ ((m.log2 : ℤ) + e + 1) := by
          push_cast
          rw [add_right_comm, zpow_add₀ two_ne_zero, ← zpow_natCast]
          push_cast
          rfl

/-- Rounding goes by the exact number that a mantissa and its accuracy stand for, provided that no
digit before the last place is missing. -/
theorem roundWithAccuracy_eq {v : ℚ} (hv : 0 < v) {m : ℕ} {e : ℤ} {accuracy : Accuracy}
    (hbits : .ofMantissaAndAccuracy m accuracy = extend (v / 2 ^ e)) (he : e ≤ lastPlace v)
    (hm : 0 < m ∨ e ≤ -1074) :
    roundWithAccuracy .binary64 .positive m e accuracy = nearest v := by
  have hq : 0 ≤ v / 2 ^ e := by positivity
  have hfloor : ⌊v / 2 ^ e⌋₊ = m := by
    have h := congrArg ExtendedMantissa.mantissa hbits
    cases accuracy with
    | exact => exact h.symm
    | inexact o => cases o <;> exact h.symm
  have htarget : Format.binary64.targetExponent (totalExponent m e) = lastPlace v := by
    rw [targetExponent_eq, lastPlace]
    rcases Nat.eq_zero_or_pos m with rfl | hpos
    · have hlt : v < ((2 : ℕ) : ℚ) ^ e := by
        rwa [Nat.floor_eq_zero, div_lt_one (by positivity)] at hfloor
      have := (Int.lt_zpow_iff_log_lt one_lt_two hv).1 hlt
      have := hm.resolve_left (lt_irrefl 0)
      simp only [Nat.log2_zero, Nat.cast_zero, zero_add]
      omega
    · rw [log_eq hv hpos hfloor]
  have hshift : shiftToTargetExponent .binary64 m e accuracy =
      (extend (v / 2 ^ lastPlace v), lastPlace v) := by
    have hplaces : e + ((lastPlace v - e).toNat : ℤ) = lastPlace v := by omega
    rw [shiftToTargetExponent, shiftToExponent, htarget, hbits, ← extend_shift hq, div_div,
      ← zpow_natCast, ← zpow_add₀ two_ne_zero, hplaces]
  rw [roundWithAccuracy, hshift]
  rfl

/-! ## Products and quotients -/

section Operations

variable {m₁ m₂ : ℕ} {e₁ e₂ : ℤ} (h₁ : 0 < m₁) (h₂ : 0 < m₂)

include h₁ h₂

theorem mul_eq (hlong : 2 ^ 52 ≤ m₁ * m₂) :
    UnpackedFloat.mul .binary64 (.finite .positive m₁ e₁ h₁) (.finite .positive m₂ e₂ h₂) =
      nearest (m₁ * 2 ^ e₁ * (m₂ * 2 ^ e₂)) := by
  have hm : 0 < m₁ * m₂ := Nat.mul_pos h₁ h₂
  have hv : (0 : ℚ) < m₁ * 2 ^ e₁ * (m₂ * 2 ^ e₂) := by positivity
  have hq : (m₁ * 2 ^ e₁ * (m₂ * 2 ^ e₂) : ℚ) / 2 ^ (e₁ + e₂) = (m₁ * m₂ : ℕ) := by
    rw [zpow_add₀ two_ne_zero]
    field_simp
    push_cast
    rfl
  have hlog : Int.log 2 (m₁ * 2 ^ e₁ * (m₂ * 2 ^ e₂) : ℚ) = (m₁ * m₂).log2 + (e₁ + e₂) :=
    log_eq hv hm (by rw [hq, Nat.floor_natCast])
  have hbits : 52 ≤ (m₁ * m₂).log2 := (Nat.le_log2 hm.ne').2 hlong
  refine roundWithAccuracy_eq hv ?_ ?_ (.inl hm)
  · rw [hq, extend_natCast]
  · rw [lastPlace, hlog]
    omega

theorem div_eq :
    UnpackedFloat.div .binary64 (.finite .positive m₁ e₁ h₁) (.finite .positive m₂ e₂ h₂) =
      nearest (m₁ * 2 ^ e₁ / (m₂ * 2 ^ e₂)) := by
  set v : ℚ := m₁ * 2 ^ e₁ / (m₂ * 2 ^ e₂) with hv_eq
  have hv : 0 < v := by positivity
  -- the quotient is worked out to the place `t`, after `s` more digits of the dividend
  set t : ℤ := min (e₁ - e₂)
    (Format.binary64.targetExponent (totalExponent m₁ e₁ - totalExponent m₂ e₂)) with ht_eq
  set s : ℕ := (e₁ - e₂ - t).toNat with hs_eq
  have ht : t = min (e₁ - e₂) (max (m₁.log2 + e₁ - (m₂.log2 + e₂) - 53) (-1074)) := by
    change min _ (max ((m₁.log2 : ℤ) + 1 + e₁ - (m₂.log2 + 1 + e₂) - 53) (-1074)) = _
    omega
  have hq : v / 2 ^ t = ((m₁ <<< s : ℕ) : ℚ) / m₂ := by
    have he : e₁ = e₂ + t + s := by omega
    rw [hv_eq, he, Nat.shiftLeft_eq, zpow_add₀ two_ne_zero, zpow_add₀ two_ne_zero, zpow_natCast]
    field_simp
    push_cast
    rfl
  have hlog : m₁.log2 + e₁ - (m₂.log2 + e₂) - 1 ≤ Int.log 2 v := by
    have hlow : ((2 ^ m₁.log2 : ℕ) : ℚ) ≤ m₁ := by exact_mod_cast Nat.log2_self_le h₁.ne'
    have hhigh : (m₂ : ℚ) ≤ (2 ^ (m₂.log2 + 1) : ℕ) := by
      exact_mod_cast (Nat.lt_log2_self (n := m₂)).le
    rw [← Int.zpow_le_iff_le_log one_lt_two hv]
    calc ((2 : ℕ) : ℚ) ^ (m₁.log2 + e₁ - (m₂.log2 + e₂) - 1)
        = (2 ^ m₁.log2 : ℕ) * 2 ^ e₁ / ((2 ^ (m₂.log2 + 1) : ℕ) * 2 ^ e₂) := by
          push_cast
          rw [eq_div_iff (by positivity), ← zpow_natCast, ← zpow_natCast, ← zpow_add₀ two_ne_zero,
            ← zpow_add₀ two_ne_zero, ← zpow_add₀ two_ne_zero]
          congr 1
          push_cast
          ring
      _ ≤ v := by
          rw [hv_eq]
          gcongr
  refine roundWithAccuracy_eq hv ?_ ?_ ?_
  · rw [hq, extend_div _ h₂]
  · rw [lastPlace]
    omega
  · by_cases htiny : t ≤ -1074
    · exact .inr htiny
    · refine .inl (Nat.div_pos ?_ h₂)
      calc m₂ ≤ 2 ^ (m₂.log2 + 1) := Nat.lt_log2_self.le
        _ ≤ 2 ^ (m₁.log2 + s) := Nat.pow_le_pow_right two_pos (by omega)
        _ ≤ m₁ * 2 ^ s := by
          rw [pow_add]
          exact Nat.mul_le_mul_right _ (Nat.log2_self_le h₁.ne')
        _ = m₁ <<< s := (Nat.shiftLeft_eq m₁ s).symm

end Operations

/-! ## What rounds to a given double -/

theorem carried_of_shift (sign : Sign) {m n : ℕ} {e e' : ℤ} (hn : 0 < n)
    (h : shiftToTargetExponent .binary64 m e .exact = (⟨n, false, false⟩, e')) :
    carried sign m e = .finite sign n e' hn := by
  simp [carried, h, hn.ne']

theorem carried_eq (sign : Sign) {m : ℕ} {e : ℤ} (hm : 0 < m) (hbound : m < 2 ^ 53)
    (he : -1074 ≤ e) : carried sign m e = .finite sign m e hm := by
  have hlog : m.log2 < 53 := (Nat.log2_lt hm.ne').2 hbound
  have hshift : (Format.binary64.targetExponent (totalExponent m e) - e).toNat = 0 := by
    rw [targetExponent_eq]
    omega
  apply carried_of_shift
  rw [shiftToTargetExponent, shiftToExponent, hshift, Nat.cast_zero, add_zero]
  rfl

/-- A mantissa that was rounded up to the next power of two is shifted by one place. -/
theorem carried_two_pow (sign : Sign) {e : ℤ} (he : -1074 ≤ e) :
    carried sign (2 ^ 53) e = .finite sign (2 ^ 52) (e + 1) (by decide) := by
  have hshift : (Format.binary64.targetExponent (totalExponent (2 ^ 53) e) - e).toNat = 1 := by
    rw [targetExponent_eq, Nat.log2_two_pow]
    omega
  apply carried_of_shift
  rw [shiftToTargetExponent, shiftToExponent, hshift]
  rfl

/-- The mantissas and exponents of positive doubles. -/
structure Canonical (m : ℕ) (e : ℤ) : Prop where
  pos : 0 < m
  bound : m < 2 ^ 53
  low : -1074 ≤ e
  high : e ≤ 971
  /-- There is only one way to write each of them. -/
  long : 2 ^ 52 ≤ m ∨ e = -1074

theorem lastPlace_eq {v : ℚ} (hv : 0 < v) {e : ℤ} (he : -1074 ≤ e)
    (hlow : 2 ^ 52 ≤ v / 2 ^ e ∨ e = -1074) (hhigh : v / 2 ^ e < 2 ^ 53) : lastPlace v = e := by
  have hpow : (0 : ℚ) < 2 ^ e := by positivity
  have hlt : v < ((2 : ℕ) : ℚ) ^ (53 + e) := by
    rw [div_lt_iff₀ hpow] at hhigh
    push_cast
    rw [zpow_add₀ two_ne_zero]
    exact_mod_cast hhigh
  have h₁ := (Int.lt_zpow_iff_log_lt one_lt_two hv).1 hlt
  rw [lastPlace]
  rcases hlow with hlow | rfl
  · have hle : ((2 : ℕ) : ℚ) ^ (52 + e) ≤ v := by
      rw [le_div_iff₀ hpow] at hlow
      push_cast
      rw [zpow_add₀ two_ne_zero]
      exact_mod_cast hlow
    have h₂ := (Int.zpow_le_iff_le_log one_lt_two hv).1 hle
    omega
  · omega

/-- Just below a power of two, where the places are twice as fine, numbers are rounded up to it. -/
theorem nearest_below_two_pow {e : ℤ} (he : -1074 ≤ e - 1) {w : ℚ} (hlow : w < 2 ^ 52)
    (hw : |w - 2 ^ 52| < 1 / 4) :
    nearest (w * 2 ^ e) = .finite .positive (2 ^ 52) e (by decide) := by
  have hbelow := (abs_lt.1 hw).1
  have hv : 0 < w * 2 ^ e := mul_pos (by linarith) (by positivity)
  have hdiv : w * 2 ^ e / 2 ^ (e - 1) = 2 * w := by
    rw [zpow_sub_one₀ two_ne_zero]
    field_simp
  have hhalf : |2 * w - (2 ^ 53 : ℕ)| < 1 / 2 := by
    have hdouble : 2 * w - (2 ^ 53 : ℕ) = 2 * (w - 2 ^ 52) := by
      push_cast
      ring
    rw [hdouble, abs_mul, abs_two]
    linarith
  have hplace : lastPlace (w * 2 ^ e) = e - 1 := by
    apply lastPlace_eq hv he
    · left
      rw [hdiv]
      linarith
    · rw [hdiv]
      linarith
  rw [nearest, hplace, hdiv, roundedMantissa_extend (by linarith) hhalf,
    carried_two_pow .positive he]
  simp

/-- A number close enough to a double rounds to it. -/
theorem nearest_eq {m : ℕ} {e : ℤ} (h : Canonical m e) {v : ℚ}
    (hclose : |v - m * 2 ^ e| * 2 ^ 54 < m * 2 ^ e) :
    nearest v = .finite .positive m e h.pos := by
  have hpow : (0 : ℚ) < 2 ^ e := by positivity
  have hm : (m : ℚ) + 1 ≤ 2 ^ 53 := by exact_mod_cast h.bound
  -- the same in units of the last place
  obtain ⟨w, rfl⟩ : ∃ w, v = w * 2 ^ e := ⟨v / 2 ^ e, by field_simp⟩
  have hw : |w - m| * 2 ^ 54 < m := by
    rw [← sub_mul, abs_mul, abs_of_pos hpow, mul_right_comm] at hclose
    exact lt_of_mul_lt_mul_right hclose hpow.le
  have hsmall : |w - m| < 1 / 2 := by linarith
  have hpos : 0 < w := by
    have : (1 : ℚ) ≤ m := by exact_mod_cast h.pos
    linarith [(abs_lt.1 hsmall).1]
  by_cases hlow : 2 ^ 52 ≤ w ∨ e = -1074
  · have hdiv : w * 2 ^ e / 2 ^ e = w := by field_simp
    have hplace : lastPlace (w * 2 ^ e) = e := by
      apply lastPlace_eq (by positivity) h.low
      · rwa [hdiv]
      · rw [hdiv]
        linarith [(abs_lt.1 hsmall).2]
    rw [nearest, hplace, hdiv, roundedMantissa_extend hpos.le hsmall]
    exact carried_eq .positive h.pos h.bound h.low
  -- below the least mantissa of its exponent, the number is close only to the double that has it
  · obtain ⟨hlow, hne⟩ := not_or.1 hlow
    have hlow : w < 2 ^ 52 := not_le.1 hlow
    obtain rfl : m = 2 ^ 52 := by
      have hle := h.long.resolve_right hne
      have : (m : ℚ) < 2 ^ 52 + 1 := by linarith [(abs_lt.1 hsmall).1]
      norm_cast at this
      omega
    have hfine : -1074 ≤ e - 1 := by have := h.low; omega
    push_cast at hw
    exact nearest_below_two_pow hfine hlow (by linarith)

/-- A double is its own rounding. -/
theorem nearest_self {m : ℕ} {e : ℤ} (h : Canonical m e) :
    nearest (m * 2 ^ e) = .finite .positive m e h.pos := by
  have hpos : (0 : ℚ) < m * 2 ^ e := mul_pos (Nat.cast_pos.2 h.pos) (by positivity)
  apply nearest_eq h
  simpa using hpos

theorem roundWithAccuracy_self {m : ℕ} {e : ℤ} (h : Canonical m e) :
    roundWithAccuracy .binary64 .positive m e .exact = .finite .positive m e h.pos := by
  have hpos : (0 : ℚ) < m * 2 ^ e := mul_pos (Nat.cast_pos.2 h.pos) (by positivity)
  have hdiv : (m : ℚ) * 2 ^ e / 2 ^ e = m := by field_simp
  have hplace : lastPlace (m * 2 ^ e) = e := by
    apply lastPlace_eq hpos h.low
    · rw [hdiv]
      exact_mod_cast h.long
    · rw [hdiv]
      exact_mod_cast h.bound
  rw [← nearest_self h]
  exact roundWithAccuracy_eq hpos (by rw [hdiv, extend_natCast]) hplace.ge (.inl h.pos)

end Catena.Rounding
