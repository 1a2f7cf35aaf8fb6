import Catena.Proofs.Number.Doubles

/-!
# Decimals that read back

The double of a decimal depends on its value only (`magnitude_eq`), so that zeros at the end of the
digits can be moved into the exponent and back.

The digits of a double are searched on one grid after the other, and whatever is found there reads
back. It remains to see that something is found: half a unit of the seventeenth digit is less than
what rounding takes back, so the nearer neighbour on the last grid reads back (`exists_digits`).
Therefore the shortest digits of a double always do (`magnitude_shortest`).
-/

namespace Catena

open Float.Model Float.Model.UnpackedFloat Rounding

namespace Decimal

/-! ## The value of a decimal -/

theorem lt_pow_width (d : ℕ) : d < 10 ^ width d :=
  (Nat.length_toDigits_le_iff (by decide) Nat.length_toDigits_pos).1 le_rfl

theorem pow_width_le {d : ℕ} (hd : 0 < d) : 10 ^ (width d - 1) ≤ d := by
  by_contra h
  rw [not_le] at h
  rcases Nat.eq_zero_or_pos (width d - 1) with hzero | hpos
  · rw [hzero] at h
    omega
  · have := (Nat.length_toDigits_le_iff (by decide) hpos).2 h
    have : 0 < width d := Nat.length_toDigits_pos
    rw [width] at *
    omega

/-- The digits before the point of a decimal are counted by its value. -/
theorem log_add_one {d : ℕ} (hd : 0 < d) (e : ℤ) :
    Int.log 10 ((d : ℚ) * 10 ^ e) + 1 = e + width d := by
  have hwidth : 0 < width d := Nat.length_toDigits_pos
  rw [log_eq_of_le_of_lt (by decide) (by positivity) (k := e + width d - 1), sub_add_cancel]
  · calc ((10 : ℕ) : ℚ) ^ (e + width d - 1) = (10 ^ (width d - 1) : ℕ) * 10 ^ e := by
          push_cast
          rw [← zpow_natCast, ← zpow_add₀ (by norm_num)]
          congr 1
          omega
      _ ≤ d * 10 ^ e := by
          gcongr
          exact_mod_cast pow_width_le hd
  · calc (d : ℚ) * 10 ^ e < (10 ^ width d : ℕ) * 10 ^ e := by
          gcongr
          exact_mod_cast lt_pow_width d
      _ = ((10 : ℕ) : ℚ) ^ (e + width d - 1 + 1) := by
          push_cast
          rw [← zpow_natCast, ← zpow_add₀ (by norm_num), sub_add_cancel, add_comm]

/-- A positive rational rounded to a double. -/
def rounded (v : ℚ) : Float :=
  if Int.log 10 v + 1 < -400 then 0
  else if 400 < Int.log 10 v + 1 then infinity
  else .ofModel (.pack (nearest v))

/-- The double of a decimal depends on its value only. -/
theorem magnitude_eq {d : ℕ} (hd : 0 < d) (e : ℤ) : magnitude d e = rounded (d * 10 ^ e) := by
  have hsize := log_add_one hd e
  have hwidth : width d ≤ d.log2 + 1 := by
    refine (Nat.length_toDigits_le_iff (by decide) (Nat.succ_pos _)).2 ?_
    calc d < 2 ^ (d.log2 + 1) := Nat.lt_log2_self
      _ ≤ 10 ^ (d.log2 + 1) := Nat.pow_le_pow_left (by decide) _
  rw [magnitude, rounded, ← hsize]
  simp only [hd.ne', false_or]
  split_ifs with h₁ h₂
  · rfl
  · rfl
  · exact ofScientific_eq hd (by omega) (by omega)

/-- Two ways of writing a decimal read as the same double. -/
theorem magnitude_congr {d d' : ℕ} {e e' : ℤ} (hd : 0 < d)
    (h : (d' : ℚ) * 10 ^ e' = d * 10 ^ e) : magnitude d' e' = magnitude d e := by
  have hd' : 0 < d' := by
    rcases Nat.eq_zero_or_pos d' with rfl | hpos
    · have : (d : ℚ) * 10 ^ e ≠ 0 := by positivity
      simp [← h] at this
    · exact hpos
  rw [magnitude_eq hd', magnitude_eq hd, h]

/-- The doubles are far inside the range in which decimals are looked at closely. -/
theorem range_of_canonical {m : ℕ} {e : ℤ} (h : Canonical m e) :
    (10 : ℚ) ^ (-400 : ℤ) ≤ m * 2 ^ e ∧ (m : ℚ) * 2 ^ e ≤ 10 ^ (399 : ℤ) := by
  constructor
  · have hpow : (2 : ℚ) ^ (1074 : ℤ) ≤ 10 ^ (400 : ℤ) := by
      exact_mod_cast (by decide +kernel : 2 ^ 1074 ≤ 10 ^ 400)
    calc (10 : ℚ) ^ (-400 : ℤ) ≤ 2 ^ (-1074 : ℤ) := by
          rw [zpow_neg, zpow_neg]
          exact inv_anti₀ (by positivity) hpow
      _ ≤ 2 ^ e := zpow_le_zpow_right₀ one_le_two h.low
      _ ≤ m * 2 ^ e := le_mul_of_one_le_left (by positivity) (by exact_mod_cast h.pos)
  · have hm : (m : ℚ) ≤ 2 ^ 53 := by exact_mod_cast h.bound.le
    have he : (2 : ℚ) ^ e ≤ 2 ^ (971 : ℤ) := zpow_le_zpow_right₀ one_le_two h.high
    calc (m : ℚ) * 2 ^ e ≤ 2 ^ 53 * 2 ^ (971 : ℤ) := by gcongr
      _ ≤ 10 ^ (399 : ℤ) := by exact_mod_cast (by decide +kernel : 2 ^ 53 * 2 ^ 971 ≤ 10 ^ 399)

theorem rounded_eq {m : ℕ} {e : ℤ} (h : Canonical m e) {v : ℚ}
    (hclose : |v - m * 2 ^ e| * 2 ^ 54 < m * 2 ^ e) :
    rounded v = .ofModel (.pack (.finite .positive m e h.pos)) := by
  obtain ⟨hleft, hright⟩ := abs_le.1 (le_refl |v - m * 2 ^ e|)
  have hsmall : (m : ℚ) * 2 ^ e * 10⁻¹ ≤ v := by linarith
  have hlarge : v < m * 2 ^ e * 10 := by linarith
  obtain ⟨hlow, hhigh⟩ := range_of_canonical h
  have hfirst : ((10 : ℕ) : ℚ) ^ (-400 - 1 : ℤ) ≤ v := by
    rw [zpow_sub_one₀ (by decide)]
    exact (mul_le_mul_of_nonneg_right hlow (by positivity)).trans hsmall
  have hlast : v < ((10 : ℕ) : ℚ) ^ (399 + 1 : ℤ) := by
    rw [zpow_add_one₀ (by decide)]
    exact hlarge.trans_le (mul_le_mul_of_nonneg_right hhigh (by positivity))
  have hv : 0 < v := lt_of_lt_of_le (by positivity) hfirst
  have h₁ := (Int.zpow_le_iff_le_log (by decide) hv).1 hfirst
  have h₂ := (Int.lt_zpow_iff_log_lt (by decide) hv).1 hlast
  rw [rounded, if_neg (by omega), if_neg (by omega), nearest_eq h hclose]

/-! ## The shortest digits -/

/-- A power as a quotient of two powers with exponents that are natural numbers. -/
theorem zpow_eq_div {b : ℚ} (hb : b ≠ 0) (k : ℤ) : b ^ k = b ^ k.toNat / b ^ (-k).toNat := by
  rw [eq_div_iff (pow_ne_zero _ hb), ← zpow_natCast, ← zpow_natCast, ← zpow_add₀ hb]
  congr 1
  omega

theorem ratio_eq (m : ℕ) (e : ℤ) :
    ((Binary.ratio m e).1 : ℚ) / (Binary.ratio m e).2 = m * 2 ^ e := by
  rw [zpow_eq_div two_ne_zero, Binary.ratio]
  push_cast [Nat.pow_eq]
  ring

theorem scale_le {num den : ℕ} (hnum : 0 < num) (hden : 0 < den) :
    (10 : ℚ) ^ (scale num den - 1) ≤ num / den := by
  have hden' : (0 : ℚ) < den := by exact_mod_cast hden
  rw [scale]
  set gap : ℤ := width num - width den with hgap
  split_ifs with h
  · have hlow : ((10 ^ (width num - 1) : ℕ) : ℚ) ≤ num := by exact_mod_cast pow_width_le hnum
    have hhigh : (den : ℚ) ≤ (10 ^ width den : ℕ) := by exact_mod_cast (lt_pow_width den).le
    have hwidth : 0 < width num := Nat.length_toDigits_pos
    calc (10 : ℚ) ^ (gap - 1) = (10 ^ (width num - 1) : ℕ) / (10 ^ width den : ℕ) := by
          push_cast
          rw [eq_div_iff (by positivity), ← zpow_natCast, ← zpow_natCast, ← zpow_add₀ (by norm_num)]
          congr 1
          omega
      _ ≤ num / den := by gcongr
  · rw [not_lt, Nat.pow_eq, Nat.pow_eq] at h
    rw [add_sub_cancel_right, zpow_eq_div (by norm_num), div_le_div_iff₀ (by positivity) hden']
    rw [mul_comm]
    exact_mod_cast h

theorem readsBack_of_digitsOn? {x : Float} {num den c : ℕ} {unit : ℤ}
    (h : digitsOn? x num den unit = some c) : readsBack x c unit = true := by
  simp only [digitsOn?] at h
  generalize (onGrid num den unit).1 = below at h
  generalize (if _ = 0 then below else below + 1) = above at h
  split at h
  next hbelow habove =>
    obtain rfl := Option.some.inj h
    split_ifs
    exacts [hbelow, habove]
  next hbelow _ => rwa [Option.some.inj h] at hbelow
  next _ habove => rwa [Option.some.inj h] at habove
  next => cases h

/-- One of the neighbours on the grid is no further away than half a unit, and there are digits on
the grid if it reads back. -/
theorem exists_neighbour (x : Float) (num : ℕ) {den : ℕ} (hden : 0 < den) (unit : ℤ) :
    ∃ c : ℕ, |(c : ℚ) * 10 ^ unit - num / den| * 2 ≤ 10 ^ unit ∧
      (readsBack x c unit = true → (digitsOn? x num den unit).isSome) := by
  set n := num * 10 ^ (-unit).toNat with hn
  set d := den * 10 ^ unit.toNat with hd
  have hpos : (0 : ℚ) < d := by positivity
  have hpow : (0 : ℚ) < 10 ^ unit := by positivity
  have hsplit : (d : ℚ) * (n / d : ℕ) + (n % d : ℕ) = n := by exact_mod_cast Nat.div_add_mod n d
  have hclose (c : ℕ) (h : |(c : ℚ) * d - n| * 2 ≤ d) :
      |(c : ℚ) * 10 ^ unit - num / den| * 2 ≤ 10 ^ unit := by
    have hunits : (c : ℚ) * 10 ^ unit - num / den = (c * d - n) / d * 10 ^ unit := by
      rw [hn, hd, zpow_eq_div (by norm_num)]
      push_cast
      field_simp
    rw [hunits, abs_mul, abs_div, abs_of_pos hpos, abs_of_pos hpow]
    calc |(c : ℚ) * d - n| / d * 10 ^ unit * 2 = |(c : ℚ) * d - n| * 2 / d * 10 ^ unit := by ring
      _ ≤ 1 * 10 ^ unit := by
          gcongr
          exact (div_le_one hpos).2 h
      _ = 10 ^ unit := one_mul _
  by_cases hrest : 2 * (n % d) < d
  · refine ⟨n / d, hclose _ ?_, ?_⟩
    · have hrest : 2 * ((n % d : ℕ) : ℚ) < d := by exact_mod_cast hrest
      have hdistance : ((n / d : ℕ) : ℚ) * d - n = -(n % d : ℕ) := by linarith
      rw [hdistance, abs_neg, Nat.abs_cast]
      linarith
    · intro hback
      change readsBack x (onGrid num den unit).1 unit = true at hback
      simp only [digitsOn?, hback]
      split <;> simp_all
  · refine ⟨n / d + 1, hclose _ ?_, ?_⟩
    · have hrest : (d : ℚ) ≤ 2 * (n % d : ℕ) := by exact_mod_cast not_lt.1 hrest
      have hlt : ((n % d : ℕ) : ℚ) < d := by exact_mod_cast Nat.mod_lt n (by positivity)
      have hdistance : ((n / d + 1 : ℕ) : ℚ) * d - n = d - (n % d : ℕ) := by
        push_cast
        linarith
      rw [hdistance, abs_of_pos (by linarith)]
      linarith
    · intro hback
      have hne : (onGrid num den unit).2.1 ≠ 0 := by
        change n % d ≠ 0
        have : 0 < d := by positivity
        omega
      change readsBack x ((onGrid num den unit).1 + 1) unit = true at hback
      simp only [digitsOn?, if_neg hne, hback]
      split <;> simp_all

theorem normalize_value (fuel digits : ℕ) (unit : ℤ) :
    ((normalize fuel digits unit).1 : ℚ) * 10 ^ (normalize fuel digits unit).2 =
      digits * 10 ^ unit := by
  induction fuel generalizing digits unit with
  | zero => rfl
  | succ fuel ih =>
    rw [normalize]
    split_ifs with h
    · have hten : (digits : ℚ) = (digits / 10 : ℕ) * 10 := by
        exact_mod_cast (Nat.div_mul_cancel (Nat.dvd_of_mod_eq_zero h.1)).symm
      rw [ih, hten, zpow_add_one₀ (by norm_num)]
      ring
    · rfl

theorem magnitude_zero (unit : ℤ) : magnitude 0 unit = 0 := by
  simp [magnitude]

/-- A decimal that reads back as a positive double is positive. -/
theorem pos_of_magnitude {m : ℕ} {e : ℤ} (h : Canonical m e) {digits : ℕ} {unit : ℤ}
    (heq : magnitude digits unit = double h) : 0 < digits := by
  rcases Nat.eq_zero_or_pos digits with rfl | hpos
  · have hparts := ofFloat_double h
    have hzero : Binary.ofFloat 0 = .finite false 0 (-1074) := by decide +kernel
    rw [← heq, magnitude_zero, hzero] at hparts
    exact absurd (Binary.finite.inj hparts).2.1.symm h.pos.ne'
  · exact hpos

theorem magnitude_of_readsBack {x : Float} {digits : ℕ} {unit : ℤ}
    (h : readsBack x digits unit = true) : magnitude digits unit = x :=
  eq_of_toBits_eq (beq_iff_eq.1 h)

/-- Seventeen digits are enough. -/
theorem exists_digits {m : ℕ} {e : ℤ} (h : Canonical m e) {top : ℤ}
    (htop : (10 : ℚ) ^ (top - 1) ≤ m * 2 ^ e) :
    (digitsOn? (double h) (Binary.ratio m e).1 (Binary.ratio m e).2 (top - 17)).isSome := by
  have hden : 0 < (Binary.ratio m e).2 := Nat.pow_pos two_pos
  obtain ⟨c, hc, hsome⟩ := exists_neighbour (double h) (Binary.ratio m e).1 hden (top - 17)
  rw [ratio_eq] at hc
  apply hsome
  -- half a unit of the last digit is less than what rounding takes back
  have hunit : (10 : ℚ) ^ (top - 17) * 10 ^ 16 = 10 ^ (top - 1) := by
    rw [← zpow_natCast, ← zpow_add₀ (by norm_num)]
    congr 1
    omega
  have hpow : (0 : ℚ) < 10 ^ (top - 17) := by positivity
  have hclose : |(c : ℚ) * 10 ^ (top - 17) - m * 2 ^ e| * 2 ^ 54 < m * 2 ^ e := by
    linarith
  have hpos : 0 < c := by
    rcases Nat.eq_zero_or_pos c with rfl | hpos
    · rw [Nat.cast_zero, zero_mul, zero_sub, abs_neg] at hclose
      linarith [le_abs_self ((m : ℚ) * 2 ^ e)]
    · exact hpos
  rw [readsBack, magnitude_eq hpos, rounded_eq h hclose]
  exact beq_self_eq_true _

/-- The shortest digits of a double read back as this double. -/
theorem magnitude_shortest {m : ℕ} {e : ℤ} (h : Canonical m e) :
    magnitude (shortest (double h) m e).1 (shortest (double h) m e).2 = double h := by
  have hnum : 0 < (Binary.ratio m e).1 := Nat.mul_pos h.pos (Nat.pow_pos two_pos)
  have hden : 0 < (Binary.ratio m e).2 := Nat.pow_pos two_pos
  have htop := scale_le hnum hden
  rw [ratio_eq] at htop
  rw [shortest]
  dsimp only
  set top := scale (Binary.ratio m e).1 (Binary.ratio m e).2
  generalize hfound : List.findSome? _ (List.range 17) = found
  cases found with
  | none =>
    have hlast := List.findSome?_eq_none_iff.1 hfound 16 (by simp)
    have hdigits := exists_digits h htop
    rw [Option.map_eq_none_iff] at hlast
    change digitsOn? _ _ _ (top - 17) = none at hlast
    simp [hlast] at hdigits
  | some found =>
    obtain ⟨n, -, hn⟩ := List.exists_of_findSome?_eq_some hfound
    obtain ⟨digits, hdigits, rfl⟩ := Option.map_eq_some_iff.1 hn
    have hback := magnitude_of_readsBack (readsBack_of_digitsOn? hdigits)
    calc magnitude (normalize 17 digits (top - (n + 1))).1 (normalize 17 digits (top - (n + 1))).2
        = magnitude digits (top - (n + 1)) :=
          magnitude_congr (pos_of_magnitude h hback) (normalize_value 17 digits _)
      _ = double h := hback

end Decimal

end Catena
