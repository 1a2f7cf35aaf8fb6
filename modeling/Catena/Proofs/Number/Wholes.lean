import Catena.Proofs.Number.Decimals

/-!
# Whole numbers

A double is a whole number from zero on just when its value is one (`Number.toWhole?_eq_some_iff`),
and then `Number.toWhole?` finds it. A number below zero, one with a fraction, an infinity and the
undefined value are none.
-/

namespace Catena

namespace Binary

/-- The number that a double stands for, if it stands for one. -/
def value? : Binary → Option ℚ
  | finite negative m e => some (if negative then -(m * 2 ^ e) else m * 2 ^ e)
  | _ => none

/-- A magnitude as a quotient of two whole numbers. -/
theorem magnitude_eq_div (m : ℕ) (e : ℤ) :
    (m : ℚ) * 2 ^ e = (m * 2 ^ e.toNat : ℕ) / (2 ^ (-e).toNat : ℕ) := by
  rw [Decimal.zpow_eq_div two_ne_zero]
  push_cast
  ring

theorem isWhole_iff_dvd {m : ℕ} {e : ℤ} :
    isWhole m e = true ↔ 2 ^ (-e).toNat ∣ m * 2 ^ e.toNat := by
  have hdvd : isWhole m e = true ↔ 2 ^ (-e).toNat ∣ m :=
    beq_iff_eq.trans Nat.dvd_iff_mod_eq_zero.symm
  rw [hdvd]
  rcases Int.le_total 0 e with he | he
  · simp [show (-e).toNat = 0 by omega]
  · simp [show e.toNat = 0 by omega]

/-- What is before the point of a whole number is the number. -/
theorem cast_wholePart {m : ℕ} {e : ℤ} (h : isWhole m e = true) :
    (wholePart m e : ℚ) = m * 2 ^ e := by
  rw [magnitude_eq_div, ← Nat.cast_div (isWhole_iff_dvd.1 h) (by positivity)]
  rfl

theorem isWhole_of_eq {m n : ℕ} {e : ℤ} (h : (m : ℚ) * 2 ^ e = n) : isWhole m e = true := by
  rw [magnitude_eq_div, div_eq_iff (by positivity)] at h
  have hmul : m * 2 ^ e.toNat = n * 2 ^ (-e).toNat := by exact_mod_cast h
  exact isWhole_iff_dvd.2 ⟨n, hmul.trans (Nat.mul_comm _ _)⟩

end Binary

/-- **A double is a whole number from zero on just when its value is one.** -/
theorem Number.toWhole?_eq_some_iff {x : Float} {n : ℕ} :
    toWhole? x = some n ↔ (Binary.ofFloat x).value? = some (n : ℚ) := by
  unfold toWhole?
  cases Binary.ofFloat x with
  | nan | infinite => simp [Binary.value?]
  | finite negative m e =>
    have hpos : (0 : ℚ) < 2 ^ e := by positivity
    dsimp only
    rw [Binary.value?, Option.some_inj]
    constructor
    · intro h
      split_ifs at h with hwhole
      cases h
      obtain ⟨hwhole, hsign⟩ := Bool.and_eq_true_iff.1 hwhole
      rw [Binary.cast_wholePart hwhole]
      split_ifs with hneg
      · have hzero : m = 0 := by simpa [hneg] using hsign
        simp [hzero]
      · rfl
    · intro h
      have habs : (m : ℚ) * 2 ^ e = n ∧ (negative = true → m = 0) := by
        split_ifs at h with hneg
        · have hn : (0 : ℚ) ≤ n := Nat.cast_nonneg n
          have hm : (0 : ℚ) ≤ m * 2 ^ e := by positivity
          have hzero : (m : ℚ) * 2 ^ e = 0 := by linarith
          have hm : (m : ℚ) = 0 := (mul_eq_zero.1 hzero).resolve_right hpos.ne'
          exact ⟨by linarith, fun _ => by exact_mod_cast hm⟩
        · exact ⟨h, fun hneg' => absurd hneg' hneg⟩
      have hwhole := Binary.isWhole_of_eq habs.1
      have hsign : (!negative || m == 0) = true := by
        cases negative with
        | false => rfl
        | true => simp [habs.2 rfl]
      rw [if_pos (Bool.and_eq_true_iff.2 ⟨hwhole, hsign⟩), Option.some_inj]
      exact_mod_cast (Binary.cast_wholePart hwhole).trans habs.1

end Catena
