import Catena.Number.Text
import Catena.Proofs.Number.Rounding

/-!
# Doubles and their parts

Arithmetic takes the 64 bits of a double apart into a sign, a mantissa and an exponent, and puts the
parts of the result together. `Binary.ofFloat` reads off the same parts (`Binary.ofFloat_eq`), and
parts that belong to a double are found again in its bits (`Binary.unpack_pack`).

Scientific notation is read by rounding its exact value (`ofScientific_eq`). There are two ways: few
digits and a small power of ten are doubles themselves, and one product or quotient of the two is
rounded; otherwise the product or quotient of the whole numbers is.
-/

namespace Catena

open Float.Model Float.Model.UnpackedFloat Rounding

/-! ## Signs, exponents and mantissas -/

namespace Binary

/-- What a number of 64 bits says. -/
def ofBits (bits : ℕ) : Binary :=
  if bits / 2 ^ 52 % 2 ^ 11 = 2047 then
    if bits % 2 ^ 52 = 0 then infinite (bits / 2 ^ 63 == 1) else nan
  else if bits / 2 ^ 52 % 2 ^ 11 = 0 then finite (bits / 2 ^ 63 == 1) (bits % 2 ^ 52) (-1074)
  else
    finite (bits / 2 ^ 63 == 1) (bits % 2 ^ 52 + 2 ^ 52)
      (Int.ofNat (bits / 2 ^ 52 % 2 ^ 11) - 1075)

theorem ofFloat_eq_ofBits (x : Float) : ofFloat x = ofBits x.toBits.toNat := rfl

/-- What the parts of a double say. -/
def ofUnpacked : UnpackedFloat → Binary
  | .notANumber => .nan
  | .infinity s => .infinite (s == .negative)
  | .zero s => .finite (s == .negative) 0 (-1074)
  | .finite s m e _ => .finite (s == .negative) m e

section Parts

variable (b : BitVec Format.binary64.numBits)

theorem toNat_unpackExponent : (unpackExponent b).toNat = b.toNat / 2 ^ 52 % 2 ^ 11 := by
  simp [unpackExponent, Nat.shiftRight_eq_div_pow]

theorem toNat_unpackMantissa : (unpackMantissa b).toNat = b.toNat % 2 ^ 52 := by
  simp [unpackMantissa]

theorem isNegative_unpackSign :
    (Sign.ofBitVec (unpackSign b) == .negative) = (b.toNat / 2 ^ 63 == 1) := by
  have hbound : b.toNat < 2 ^ 64 := b.isLt
  have hpart : (unpackSign b).toNat = b.toNat / 2 ^ 63 % 2 := by
    simp [unpackSign, Nat.shiftRight_eq_div_pow]
  have hcases : b.toNat / 2 ^ 63 = 0 ∨ b.toNat / 2 ^ 63 = 1 := by omega
  rcases hcases with h | h
  · have hzero : unpackSign b = 0#1 := BitVec.eq_of_toNat_eq (by rw [hpart, h]; rfl)
    rw [hzero, h]
    rfl
  · have hone : unpackSign b = 1#1 := BitVec.eq_of_toNat_eq (by rw [hpart, h]; rfl)
    rw [hone, h]
    rfl

theorem ofUnpacked_unpack : ofUnpacked (UnpackedFloat.unpack .binary64 b) = ofBits b.toNat := by
  have hones : unpackExponent b = -1#_ ↔ b.toNat / 2 ^ 52 % 2 ^ 11 = 2047 := by
    rw [← toNat_unpackExponent, BitVec.toNat_eq]
    rfl
  have hzeros : unpackExponent b = 0#_ ↔ b.toNat / 2 ^ 52 % 2 ^ 11 = 0 := by
    rw [← toNat_unpackExponent, BitVec.toNat_eq]
    rfl
  have hnone : unpackMantissa b = 0#_ ↔ b.toNat % 2 ^ 52 = 0 := by
    rw [← toNat_unpackMantissa, BitVec.toNat_eq]
    rfl
  rw [ofBits, UnpackedFloat.unpack]
  simp only [hones, hzeros, hnone]
  split_ifs with h₁ h₂ h₃ h₄
  · simp only [ofUnpacked, isNegative_unpackSign]
  · rfl
  · simp only [ofUnpacked, isNegative_unpackSign, h₄]
  · simp only [ofUnpacked, isNegative_unpackSign, toNat_unpackMantissa, toNat_unpackExponent, h₃]
    rfl
  · have hlong : (1#1 ++ unpackMantissa b).toNat = b.toNat % 2 ^ 52 + 2 ^ 52 := by
      have happend := Nat.two_pow_add_eq_or_of_lt (unpackMantissa b).isLt 1
      rw [mul_one, toNat_unpackMantissa] at happend
      rw [BitVec.toNat_append, toNat_unpackMantissa, Nat.shiftLeft_eq, add_comm]
      simpa using happend.symm
    simp only [ofUnpacked, isNegative_unpackSign, hlong, toNat_unpackExponent]
    rfl

end Parts

theorem ofFloat_eq (x : Float) : ofFloat x = ofUnpacked x.toModel.unpack :=
  (ofUnpacked_unpack x.toModel.toBits.toBitVec).symm

/-- The parts of a positive double are the only ones for it. -/
theorem canonical_of_ofFloat {x : Float} {negative : Bool} {m : ℕ} {e : ℤ}
    (h : ofFloat x = .finite negative m e) (hm : 0 < m) : Canonical m e := by
  rw [ofFloat_eq_ofBits, ofBits] at h
  split_ifs at h with h₁ h₂ h₃
  · obtain ⟨-, rfl, rfl⟩ := finite.inj h
    exact ⟨hm, by omega, le_rfl, by decide, .inr rfl⟩
  · obtain ⟨-, rfl, rfl⟩ := finite.inj h
    simp only [Int.ofNat_eq_natCast]
    exact ⟨hm, by omega, by omega, by omega, .inl (by omega)⟩

/-! ## Packing -/

theorem toNat_packComponents (s : Sign) (e : BitVec 11) (m : BitVec 52) :
    (packComponents .binary64 s e m).toNat =
      s.toBitVec.toNat * 2 ^ 63 + e.toNat * 2 ^ 52 + m.toNat := by
  have h₁ := Nat.two_pow_add_eq_or_of_lt e.isLt s.toBitVec.toNat
  have h₂ := Nat.two_pow_add_eq_or_of_lt m.isLt (2 ^ 11 * s.toBitVec.toNat + e.toNat)
  change (s.toBitVec ++ e ++ m).toNat = _
  rw [BitVec.toNat_append, BitVec.toNat_append, Nat.shiftLeft_eq, Nat.shiftLeft_eq,
    mul_comm _ (2 ^ 11), ← h₁, mul_comm _ (2 ^ 52), ← h₂]
  ring

theorem eq_finite_of_ofUnpacked {u : UnpackedFloat} {s : Sign} {m : ℕ} {e : ℤ} (hm : 0 < m)
    (h : ofUnpacked u = .finite (s == .negative) m e) : u = .finite s m e hm := by
  cases u with
  | notANumber | infinity _ => simp [ofUnpacked] at h
  | zero _ =>
    obtain ⟨-, rfl, -⟩ := finite.inj h
    exact absurd hm (lt_irrefl 0)
  | finite s' m' e' _ =>
    obtain ⟨hs, rfl, rfl⟩ := finite.inj h
    cases s <;> cases s' <;> first | rfl | exact absurd hs (by decide)

/-- The bits of a double, from its parts. -/
theorem toNat_pack (s : Sign) {m : ℕ} {e : ℤ} (h : Canonical m e) :
    (UnpackedFloat.pack .binary64 (.finite s m e h.pos)).toNat =
      s.toBitVec.toNat * 2 ^ 63 +
        if 2 ^ 52 ≤ m then (e + 1075).toNat * 2 ^ 52 + m % 2 ^ 52 else m := by
  obtain ⟨hpos, hbound, hlow, hhigh, hlong⟩ := h
  have hbias :
      (e + Format.binary64.exponentBias + Format.binary64.mantissaBitsWithoutImplicit).toNat =
        (e + 1075).toNat := by
    change (e + 1023 + 52).toNat = _
    omega
  have hfits : ¬2 ^ 11 ≤ (e + 1075).toNat + 1 := by omega
  have hnormal : m.log2 + 1 = Format.binary64.mantissaBits ↔ 2 ^ 52 ≤ m := by
    have h₁ : 52 ≤ m.log2 ↔ 2 ^ 52 ≤ m := Nat.le_log2 hpos.ne'
    have h₂ : m.log2 < 53 := (Nat.log2_lt hpos.ne').2 hbound
    change m.log2 + 1 = 53 ↔ _
    omega
  rw [UnpackedFloat.pack]
  simp only [hbias, if_neg hfits, hnormal]
  split_ifs with hm
  · rw [toNat_packComponents, BitVec.toNat_ofNat, BitVec.toNat_ofNat, Nat.mod_eq_of_lt (by omega),
      add_assoc]
  · have hsmall : m % 2 ^ 52 = m := Nat.mod_eq_of_lt (by omega)
    simp only [toNat_packComponents, BitVec.toNat_ofNat, Nat.zero_mod, zero_mul, add_zero, hsmall]

theorem unpack_pack (s : Sign) {m : ℕ} {e : ℤ} (h : Canonical m e) :
    (Float.Model.pack (.finite s m e h.pos)).unpack = .finite s m e h.pos := by
  apply eq_finite_of_ofUnpacked
  change ofUnpacked (UnpackedFloat.unpack .binary64 (UnpackedFloat.pack .binary64 _)) = _
  rw [ofUnpacked_unpack, toNat_pack s h]
  obtain ⟨hpos, hbound, hlow, hhigh, hlong⟩ := h
  generalize hbit : s.toBitVec.toNat = bit
  have hsign : (bit == 1) = (s == .negative) := by
    subst hbit
    cases s <;> rfl
  have hbit : bit < 2 := by
    rw [← hbit]
    exact s.toBitVec.isLt
  split_ifs with hm
  · set bits := bit * 2 ^ 63 + ((e + 1075).toNat * 2 ^ 52 + m % 2 ^ 52) with hbits
    have h₁ : bits / 2 ^ 63 = bit := by omega
    have h₂ : bits / 2 ^ 52 % 2 ^ 11 = (e + 1075).toNat := by omega
    have h₃ : bits % 2 ^ 52 + 2 ^ 52 = m := by omega
    rw [ofBits, h₁, h₂, h₃, hsign, if_neg (by omega), if_neg (by omega)]
    congr 1
    simp only [Int.ofNat_eq_natCast]
    omega
  · have h₁ : (bit * 2 ^ 63 + m) / 2 ^ 63 = bit := by omega
    have h₂ : (bit * 2 ^ 63 + m) / 2 ^ 52 % 2 ^ 11 = 0 := by omega
    have h₃ : (bit * 2 ^ 63 + m) % 2 ^ 52 = m := by omega
    rw [ofBits, h₁, h₂, h₃, hsign, if_neg (by omega), if_pos rfl, hlong.resolve_left hm]

end Binary

/-! ## Doubles by their parts -/

/-- The positive double with these parts. -/
def double {m : ℕ} {e : ℤ} (h : Canonical m e) : Float :=
  .ofModel (.pack (.finite .positive m e h.pos))

theorem ofFloat_double {m : ℕ} {e : ℤ} (h : Canonical m e) :
    Binary.ofFloat (double h) = .finite false m e := by
  rw [Binary.ofFloat_eq, double, Binary.unpack_pack .positive h]
  rfl

theorem eq_of_toBits_eq : ∀ {x y : Float}, x.toBits = y.toBits → x = y
  | ⟨⟨_, _⟩⟩, ⟨⟨_, _⟩⟩, rfl => rfl

theorem beq_of_unpack_eq {x y : Float} {s : Sign} {m : ℕ} {e : ℤ} {h : 0 < m}
    (hx : x.toModel.unpack = .finite s m e h) (hy : y.toModel.unpack = .finite s m e h) :
    (x == y) = true := by
  change (x.toModel.unpack.compare y.toModel.unpack == some .eq) = true
  rw [hx, hy]
  cases s <;> simp [UnpackedFloat.compare]

theorem beq_zero {x : Float} {negative : Bool} {e : ℤ}
    (hx : Binary.ofFloat x = .finite negative 0 e) : (x == (0 : Float)) = true := by
  rw [Binary.ofFloat_eq] at hx
  obtain ⟨s, hs⟩ : ∃ s, x.toModel.unpack = .zero s := by
    cases hu : x.toModel.unpack with
    | notANumber | infinity _ => simp [hu, Binary.ofUnpacked] at hx
    | zero s => exact ⟨s, rfl⟩
    | finite s m e hm =>
      rw [hu] at hx
      exact absurd (Binary.finite.inj hx).2.1 hm.ne'
  change (x.toModel.unpack.compare (0 : Float).toModel.unpack == some .eq) = true
  rw [hs]
  rfl

theorem abs_eq_double {x : Float} {negative : Bool} {m : ℕ} {e : ℤ} (h : Canonical m e)
    (hx : Binary.ofFloat x = .finite negative m e) : Float.abs x = double h := by
  rw [Binary.ofFloat_eq] at hx
  change Float.ofModel (Float.Model.pack x.toModel.unpack.abs) = _
  cases negative with
  | false => rw [Binary.eq_finite_of_ofUnpacked (s := .positive) h.pos hx]; rfl
  | true => rw [Binary.eq_finite_of_ofUnpacked (s := .negative) h.pos hx]; rfl

theorem unpack_packComponents_ne (s : Sign) {e : BitVec 11} {m : BitVec 52}
    (h : e ≠ -1#11 ∨ m = 0#52) :
    UnpackedFloat.unpack .binary64 (packComponents .binary64 s e m) ≠ .notANumber := by
  rw [UnpackedFloat.unpack]
  simp only [unpackExponent_packComponents, unpackMantissa_packComponents]
  split_ifs with h₁ h₂ h₃ <;> simp_all

theorem unpack_pack_ne {u : UnpackedFloat} (hu : u ≠ .notANumber) :
    (Float.Model.pack u).unpack ≠ .notANumber := by
  change UnpackedFloat.unpack .binary64 (UnpackedFloat.pack .binary64 u) ≠ _
  cases u with
  | notANumber => exact absurd rfl hu
  | infinity s => exact unpack_packComponents_ne s (.inr rfl)
  | zero s => exact unpack_packComponents_ne s (.inr rfl)
  | finite s m e hm =>
    rw [UnpackedFloat.pack]
    split_ifs with hoverflow hnormal
    · exact unpack_packComponents_ne s (.inr rfl)
    · refine unpack_packComponents_ne s (.inl fun heq => hoverflow ?_)
      have hbits := congrArg BitVec.toNat heq
      rw [BitVec.toNat_ofNat] at hbits
      change _ % 2 ^ 11 = 2047 at hbits
      change 2 ^ 11 ≤ _ + 1
      omega
    · exact unpack_packComponents_ne s (.inl (by decide))

/-! ## Scientific notation -/

/-- A double with a full mantissa whose value is `v`. -/
def Exactly (u : UnpackedFloat) (v : ℚ) : Prop :=
  ∃ (m : ℕ) (e : ℤ) (h : 0 < m), u = .finite .positive m e h ∧ 2 ^ 52 ≤ m ∧ (m : ℚ) * 2 ^ e = v

theorem Exactly.mul {u₁ u₂ : UnpackedFloat} {v₁ v₂ : ℚ} (h₁ : Exactly u₁ v₁) (h₂ : Exactly u₂ v₂) :
    UnpackedFloat.mul .binary64 u₁ u₂ = nearest (v₁ * v₂) := by
  obtain ⟨m₁, e₁, hm₁, rfl, hlong, rfl⟩ := h₁
  obtain ⟨m₂, e₂, hm₂, rfl, -, rfl⟩ := h₂
  exact mul_eq hm₁ hm₂ (hlong.trans (Nat.le_mul_of_pos_right m₁ hm₂))

theorem Exactly.div {u₁ u₂ : UnpackedFloat} {v₁ v₂ : ℚ} (h₁ : Exactly u₁ v₁) (h₂ : Exactly u₂ v₂) :
    UnpackedFloat.div .binary64 u₁ u₂ = nearest (v₁ / v₂) := by
  obtain ⟨m₁, e₁, hm₁, rfl, -, rfl⟩ := h₁
  obtain ⟨m₂, e₂, hm₂, rfl, -, rfl⟩ := h₂
  exact div_eq hm₁ hm₂

/-- The powers of ten that are doubles. -/
theorem powersOfTen : ∀ n (_ : n < 23),
    Binary.ofFloat Float.exactlyRepresentablePowersOfTen[n] =
        .finite false (10 ^ n * 2 ^ 52 / 2 ^ (10 ^ n).log2) ((10 ^ n).log2 - 52) ∧
      2 ^ 52 ≤ 10 ^ n * 2 ^ 52 / 2 ^ (10 ^ n).log2 ∧ 2 ^ (10 ^ n).log2 ∣ 10 ^ n * 2 ^ 52 := by
  decide +kernel

theorem exactly_powerOfTen {n : ℕ} (hn : n < 23) :
    Exactly (Float.exactlyRepresentablePowersOfTen[n]).toModel.unpack (10 ^ n) := by
  obtain ⟨hparts, hlong, hdvd⟩ := powersOfTen n hn
  generalize (10 ^ n).log2 = k at hparts hlong hdvd
  have hpos : 0 < 10 ^ n * 2 ^ 52 / 2 ^ k := (by decide : 0 < 2 ^ 52).trans_le hlong
  rw [Binary.ofFloat_eq] at hparts
  refine ⟨10 ^ n * 2 ^ 52 / 2 ^ k, k - 52, hpos, Binary.eq_finite_of_ofUnpacked hpos hparts, hlong,
    ?_⟩
  rw [Nat.cast_div hdvd (by positivity), zpow_sub₀ two_ne_zero, zpow_natCast]
  push_cast
  field_simp

theorem exactly_toFloat {n : ℕ} (hpos : 0 < n) (hn : n < 2 ^ 53) :
    Exactly n.toUInt64.toFloat.toModel.unpack n := by
  have hlog : n.log2 < 53 := (Nat.log2_lt hpos.ne').2 hn
  have hsize : n.toUInt64.toNat = n := by
    simp
    omega
  have hround : UnpackedFloat.ofNat .binary64 n = UnpackedFloat.round .binary64 .positive n 0 := by
    rw [UnpackedFloat.ofNat, UnpackedFloat.ofInt, UnpackedFloat.normalize,
      Int.compare_eq_gt.2 (by omega)]
    rfl
  -- the mantissa is filled up with zeros
  obtain ⟨k, hk⟩ : ∃ k, n.log2 + k = 52 := ⟨52 - n.log2, by omega⟩
  have hshift : (0 - Format.binary64.targetExponent (totalExponent n 0)).toNat = k := by
    rw [targetExponent_eq]
    omega
  have hlong : 2 ^ 52 ≤ n * 2 ^ k := by
    rw [← hk, pow_add]
    exact Nat.mul_le_mul_right _ (Nat.log2_self_le hpos.ne')
  have hcanonical : Canonical (n * 2 ^ k) (-k) := by
    have hbound : n * 2 ^ k < 2 ^ 53 := by
      have hsplit : 2 ^ 53 = 2 ^ (n.log2 + 1) * 2 ^ k := by rw [← pow_add, add_right_comm, hk]
      rw [hsplit]
      exact Nat.mul_lt_mul_of_pos_right Nat.lt_log2_self (by positivity)
    exact ⟨by positivity, hbound, by omega, by omega, .inl hlong⟩
  have hexact : UnpackedFloat.round .binary64 .positive n 0 =
      .finite .positive (n * 2 ^ k) (-k) hcanonical.pos := by
    rw [UnpackedFloat.round, decreaseExponent]
    simp only [hshift, Nat.shiftLeft_eq]
    rw [zero_sub]
    exact roundWithAccuracy_self hcanonical
  change Exactly (Float.Model.pack (UnpackedFloat.ofNat .binary64 n.toUInt64.toNat)).unpack n
  rw [hsize, hround, hexact, Binary.unpack_pack _ hcanonical]
  refine ⟨_, _, _, rfl, hlong, ?_⟩
  rw [zpow_neg, zpow_natCast]
  push_cast
  field_simp

theorem unpacked_ofScientific {d : ℕ} {e : ℤ} (hd : 0 < d) (hhigh : e ≤ 2 ^ 11)
    (hlow : -(2 ^ 11 + d.log2) ≤ e) :
    UnpackedFloat.ofScientific .binary64 d e = nearest (d * 10 ^ e) := by
  rw [UnpackedFloat.ofScientific, dif_neg hd.ne', if_neg (not_lt.2 hhigh), if_neg (not_lt.2 hlow)]
  split_ifs with he
  · obtain ⟨n, rfl⟩ := Int.eq_ofNat_of_zero_le he
    rw [mul_eq]
    · congr 1
      change ((d <<< 53 : ℕ) : ℚ) * 2 ^ (-53 : ℤ) * ((10 ^ n : ℕ) * 2 ^ (0 : ℤ)) = _
      rw [Nat.shiftLeft_eq, zpow_neg]
      push_cast
      field_simp
      norm_cast
    · change 2 ^ 52 ≤ d <<< 53 * 10 ^ n
      rw [Nat.shiftLeft_eq]
      calc 2 ^ 52 ≤ 1 * 2 ^ 53 * 1 := by decide
        _ ≤ d * 2 ^ 53 * 10 ^ n := by
          gcongr
          exacts [hd, Nat.one_le_pow _ _ (by decide)]
  · obtain ⟨n, rfl⟩ : ∃ n : ℕ, e = -n := ⟨(-e).toNat, by omega⟩
    rw [div_eq]
    congr 1
    simp [zpow_neg, div_eq_mul_inv]

/-- Scientific notation is read by rounding its exact value. -/
theorem ofScientific_eq {d : ℕ} {e : ℤ} (hd : 0 < d) (hhigh : e ≤ 2 ^ 11)
    (hlow : -(2 ^ 11 + d.log2) ≤ e) :
    Float.ofScientific d (e < 0) e.natAbs = .ofModel (.pack (nearest (d * 10 ^ e))) := by
  rw [Float.ofScientific]
  by_cases hfast : d < 2 ^ 53 ∧ e.natAbs ≤ 22
  · rw [dif_pos hfast]
    have hexact := exactly_toFloat hd hfast.1
    have hpower := exactly_powerOfTen (Nat.lt_succ_of_le hfast.2)
    split_ifs with he
    · have hvalue : (d : ℚ) * 10 ^ e = d / 10 ^ e.natAbs := by
        rw [← zpow_natCast, div_eq_mul_inv, ← zpow_neg]
        congr 2
        rw [decide_eq_true_eq] at he
        omega
      rw [hvalue, ← hexact.div hpower]
      rfl
    · have hvalue : (d : ℚ) * 10 ^ e = d * 10 ^ e.natAbs := by
        rw [← zpow_natCast]
        congr 2
        rw [decide_eq_true_eq] at he
        omega
      rw [hvalue, ← hexact.mul hpower]
      rfl
  · have hsign :
        (if decide (e < 0) = true then Int.negOfNat e.natAbs else Int.ofNat e.natAbs) = e := by
      simp only [decide_eq_true_eq, Int.negOfNat_eq, Int.ofNat_eq_natCast]
      split_ifs <;> omega
    rw [dif_neg hfast]
    simp only [hsign]
    rw [Float.Model.ofScientific, unpacked_ofScientific hd hhigh hlow]

end Catena
