import Mathlib.Algebra.Order.Field.Power
import ScaledGauss.Binary64
import ScaledGauss.Proofs.CorrectRounding

/-!
# What 64 bits denote

The rational number of a floating-point pattern is written down here as the standard has it
(`ScaledGauss.Binary64.value?`): a sign, a fraction below one or between one and two, and a power
of two. The reading of the bits that the library computes with is an integer times a power of two,
and it is the same number (`ScaledGauss.Binary64.value?_of_finite`).

**Every short significand has a pattern.** A number `m * 2 ^ e` with `m` below `2 ^ 53` and `e` at
least `-1074` is denoted by some bits as soon as it is below `2 ^ 1024`
(`ScaledGauss.Binary64.exists_value`): the significand is raised until its leading bit is in place
or the exponent is as small as it can be. This is all that is needed of a rounding: whatever number
a rounding to nearest takes (`ScaledGauss.Binary64.RoundsTo`), a number that has a pattern is
rounded to itself (`ScaledGauss.Binary64.RoundsTo.value?_eq`).
-/

namespace ScaledGauss

/-- A magnitude with a sign. -/
def signed (negative : Bool) (q : ℚ) : ℚ := if negative then -q else q

@[simp] theorem signed_false (q : ℚ) : signed false q = q := rfl

@[simp] theorem signed_true (q : ℚ) : signed true q = -q := rfl

@[simp] theorem abs_signed (negative : Bool) (q : ℚ) : |signed negative q| = |q| := by
  cases negative <;> simp

theorem signed_mul (negative : Bool) (q r : ℚ) :
    signed negative q * r = signed negative (q * r) := by
  cases negative <;> simp

/-- The magnitude of a dyadic rational. -/
theorem abs_signed_dyadic (negative : Bool) (significand : ℕ) (exponent : ℤ) :
    |signed negative (significand * 2 ^ exponent)| = significand * 2 ^ exponent := by
  rw [abs_signed, abs_of_nonneg (by positivity)]

theorem signed_cast (negative : Bool) (z : ℤ) :
    signed negative z = ((if negative then -z else z : ℤ) : ℚ) := by
  cases negative <;> simp

theorem signed_natAbs (z : ℤ) : signed (z < 0) z.natAbs = z := by
  rcases lt_or_ge z 0 with hz | hz
  · rw [decide_eq_true hz, signed_true, Nat.cast_natAbs, abs_of_neg hz]
    push_cast
    ring
  · rw [decide_eq_false (not_lt.mpr hz), signed_false, Nat.cast_natAbs, abs_of_nonneg hz]

theorem signed_mul_signed (s t : Bool) (q r : ℚ) :
    signed s q * signed t r = signed (s ^^ t) (q * r) := by
  cases s <;> cases t <;> simp

theorem signed_signed (s t : Bool) (q : ℚ) : signed s (signed t q) = signed (s ^^ t) q := by
  cases s <;> cases t <;> simp

theorem abs_sub_signed (s : Bool) (w q : ℚ) : |w - signed s q| = |signed s w - q| := by
  cases s with
  | false => rfl
  | true =>
    rw [signed_true, signed_true, ← abs_neg]
    congr 1
    ring

theorem decide_signed_lt_zero {q : ℚ} (hq : 0 < q) (negative : Bool) :
    decide (signed negative q < 0) = negative := by
  cases negative <;> simp [hq, not_lt.mpr hq.le]

namespace Binary64

/-! ### The number of a pattern -/

/-- **The number that 64 bits denote**, if it is one: with the least exponent the fraction alone,
otherwise one and the fraction, times a power of two. -/
def value? (x : Binary64) : Option ℚ :=
  if x.biasedExponent = 2047 then none
  else if x.biasedExponent = 0 then
    some ((-1) ^ x.negative.toNat * (x.fraction / 2 ^ 52) * 2 ^ (-1022 : ℤ))
  else
    some ((-1) ^ x.negative.toNat * (1 + x.fraction / 2 ^ 52) *
      2 ^ ((x.biasedExponent : ℤ) - 1023))

variable {x : Binary64} {negative : Bool} {significand : ℕ} {exponent : ℤ}

theorem neg_one_pow_mul (negative : Bool) (q : ℚ) :
    (-1) ^ negative.toNat * q = signed negative q := by
  cases negative <;> simp

/-- A power of two split off another. -/
theorem two_zpow_eq_mul (k : ℕ) (e : ℤ) : (2 : ℚ) ^ e = 2 ^ k * 2 ^ (e - k) := by
  rw [← zpow_natCast, ← zpow_add₀ two_ne_zero, add_sub_cancel]

theorem two_pow_mul_zpow (k : ℕ) (e : ℤ) : (2 : ℚ) ^ k * 2 ^ e = 2 ^ (e + k) := by
  rw [← zpow_natCast, ← zpow_add₀ two_ne_zero, add_comm]

/-- **The computed reading of the bits is their number.** -/
theorem value?_of_finite (h : x.denote = .finite negative significand exponent) :
    x.value? = some (signed negative (significand * 2 ^ exponent)) := by
  rw [denote] at h
  rw [value?]
  split_ifs at h with h2047 hfraction h0
  · obtain ⟨rfl, rfl, rfl⟩ := Denotation.finite.inj h
    rw [if_neg h2047, if_pos h0, mul_assoc, neg_one_pow_mul, two_zpow_eq_mul 52 (-1022),
      ← mul_assoc, div_mul_cancel₀ _ (by positivity)]
    rfl
  · obtain ⟨rfl, rfl, rfl⟩ := Denotation.finite.inj h
    have hexponent : (x.biasedExponent : ℤ) - 1023 - (52 : ℕ) = x.biasedExponent - 1075 := by
      push_cast
      ring
    rw [if_neg h2047, if_neg h0, mul_assoc, neg_one_pow_mul, two_zpow_eq_mul 52, hexponent,
      ← mul_assoc, one_add_mul, div_mul_cancel₀ _ (by positivity), pow2_eq_pow]
    push_cast
    rfl

/-- The significand and the exponent of a number are in their ranges. -/
theorem bounds_of_finite (h : x.denote = .finite negative significand exponent) :
    significand < 2 ^ 53 ∧ -1074 ≤ exponent ∧ exponent ≤ 971 := by
  have hfraction : x.fraction < 2 ^ 52 := Nat.mod_lt _ (pow2_pos 52)
  have hbiased : x.biasedExponent < 2048 := Nat.mod_lt _ (pow2_pos 11)
  have h52 : pow2 52 = 2 ^ 52 := rfl
  rw [denote] at h
  split_ifs at h with h2047 hzero h0
  · obtain ⟨rfl, rfl, rfl⟩ := Denotation.finite.inj h
    omega
  · obtain ⟨rfl, rfl, rfl⟩ := Denotation.finite.inj h
    omega

theorem negative_of_finite {s : Bool} {m : ℕ} {e : ℤ} (h : x.denote = .finite s m e) :
    x.negative = s := by
  rw [denote] at h
  split_ifs at h
  · obtain ⟨hsign, -⟩ := Denotation.finite.inj h
    exact hsign
  · obtain ⟨hsign, -⟩ := Denotation.finite.inj h
    exact hsign

/-- **A number is a dyadic rational**: it has a computed reading, with a short significand. -/
theorem exists_dyadic {v : ℚ} (h : x.value? = some v) :
    ∃ negative significand exponent, x.denote = .finite negative significand exponent ∧
      v = signed negative (significand * 2 ^ exponent) ∧
      significand < 2 ^ 53 ∧ -1074 ≤ exponent ∧ exponent ≤ 971 := by
  obtain ⟨negative, significand, exponent, hx⟩ : ∃ negative significand exponent,
      x.denote = .finite negative significand exponent := by
    rw [value?] at h
    rw [denote]
    split_ifs at h ⊢ <;> exact ⟨_, _, _, rfl⟩
  have hv := Option.some.inj (h.symm.trans (value?_of_finite hx))
  exact ⟨negative, significand, exponent, hx, hv, bounds_of_finite hx⟩

/-- The three fields of a pattern below the sign. -/
theorem fields_ofPattern (negative : Bool) {pattern : ℕ} (h : pattern < 2 ^ 63) :
    (ofPattern negative pattern).negative = negative ∧
      (ofPattern negative pattern).biasedExponent = pattern / 2 ^ 52 ∧
      (ofPattern negative pattern).fraction = pattern % 2 ^ 52 := by
  have hbits : (ofPattern negative pattern).bits.toNat =
      if negative then 2 ^ 63 + pattern else pattern := by
    change (UInt64.ofNat (if negative then 2 ^ 63 + pattern else pattern)).toNat = _
    rw [UInt64.toNat_ofNat', Nat.mod_eq_of_lt]
    split_ifs <;> omega
  rw [Binary64.negative, biasedExponent, fraction, hbits, pow2_eq_pow, pow2_eq_pow, pow2_eq_pow]
  cases negative with
  | false => exact ⟨decide_eq_false (by simpa using h), by simp; omega, rfl⟩
  | true => exact ⟨decide_eq_true (by simp), by simp; omega, by simp; omega⟩

/-- **The bits of a significand and an exponent**: the leading bit is in place, or the exponent is
the least one. -/
theorem denote_ofPattern (negative : Bool) (hs : significand < 2 ^ 53) (hlow : -1074 ≤ exponent)
    (hhigh : exponent ≤ 971) (hlead : 2 ^ 52 ≤ significand ∨ exponent = -1074) :
    (ofPattern negative ((exponent + 1074).toNat * pow2 52 + significand)).denote =
      .finite negative significand exponent := by
  obtain ⟨biased, hbiased, rfl⟩ : ∃ biased : ℕ, (exponent + 1074).toNat = biased ∧
      exponent = biased - 1074 := ⟨_, rfl, by omega⟩
  have hpattern : biased * 2 ^ 52 + significand < 2 ^ 63 := by omega
  obtain ⟨hnegative, hexponent, hfraction⟩ := fields_ofPattern negative hpattern
  rw [hbiased, pow2_eq_pow, denote, hnegative, hexponent, hfraction, pow2_eq_pow]
  by_cases hleading : 2 ^ 52 ≤ significand
  · have hquotient : (biased * 2 ^ 52 + significand) / 2 ^ 52 = biased + 1 := by omega
    have hremainder : 2 ^ 52 + (biased * 2 ^ 52 + significand) % 2 ^ 52 = significand := by omega
    rw [hquotient, hremainder, if_neg (by omega), if_neg (by omega)]
    congr 1
    push_cast
    ring
  · obtain rfl : biased = 0 := by omega
    have hquotient : (0 * 2 ^ 52 + significand) / 2 ^ 52 = 0 := by omega
    have hremainder : (0 * 2 ^ 52 + significand) % 2 ^ 52 = significand := by omega
    rw [hquotient, hremainder, if_neg (by decide), if_pos rfl]
    rfl

/-! ### Numbers that have a pattern -/

/-- Zero has two patterns. -/
theorem value?_zero (negative : Bool) : (ofPattern negative 0).value? = some 0 := by
  have hdenote : (ofPattern negative 0).denote = .finite negative 0 (-1074) := by
    cases negative <;> decide
  rw [value?_of_finite hdenote]
  cases negative <;> simp

/-- **The pattern of a number with its leading bit in place** or with the least exponent. -/
theorem value?_ofPattern (negative : Bool) (hs : significand < 2 ^ 53) (hlow : -1074 ≤ exponent)
    (hhigh : exponent ≤ 971) (hlead : 2 ^ 52 ≤ significand ∨ exponent = -1074) :
    (ofPattern negative ((exponent + 1074).toNat * pow2 52 + significand)).value? =
      some (signed negative (significand * 2 ^ exponent)) :=
  value?_of_finite (denote_ofPattern negative hs hlow hhigh hlead)

/-- A significand raised by some places, with its exponent lowered by as many. -/
theorem raised_mul_zpow (significand places : ℕ) (exponent : ℤ) :
    ((significand * 2 ^ places : ℕ) : ℚ) * 2 ^ (exponent - places) =
      significand * 2 ^ exponent := by
  rw [two_zpow_eq_mul places exponent]
  push_cast
  ring

/-- A significand raised until its leading bit is in place. -/
theorem raised_bounds (h0 : significand ≠ 0) (hs : significand < 2 ^ 53) :
    2 ^ 52 ≤ significand * 2 ^ (52 - significand.log2) ∧
      significand * 2 ^ (52 - significand.log2) < 2 ^ 53 := by
  have hlog : significand.log2 < 53 := (Nat.log2_lt h0).mpr hs
  constructor
  · calc 2 ^ 52 = 2 ^ significand.log2 * 2 ^ (52 - significand.log2) := by
          rw [← pow_add, Nat.add_sub_cancel' (by omega)]
      _ ≤ significand * 2 ^ (52 - significand.log2) :=
          Nat.mul_le_mul_right _ (Nat.log2_self_le h0)
  · calc significand * 2 ^ (52 - significand.log2)
        < 2 ^ (significand.log2 + 1) * 2 ^ (52 - significand.log2) :=
          Nat.mul_lt_mul_of_pos_right Nat.lt_log2_self (by positivity)
      _ = 2 ^ 53 := by rw [← pow_add]; congr 1; omega

/-- **Every short significand has a pattern**, unless the number is too large: the significand is
raised as far as its leading bit and the least exponent allow. -/
theorem exists_value (negative : Bool) (hs : significand < 2 ^ 53) (hlow : -1074 ≤ exponent)
    (hlt : (significand : ℚ) * 2 ^ exponent < 2 ^ 1024) :
    ∃ x : Binary64, x.value? = some (signed negative (significand * 2 ^ exponent)) := by
  by_cases h0 : significand = 0
  · refine ⟨ofPattern negative 0, ?_⟩
    rw [value?_zero, h0]
    cases negative <;> simp
  obtain ⟨hlead, hraised⟩ := raised_bounds h0 hs
  obtain ⟨places, hplaces, hleast, hends⟩ : ∃ places : ℕ, places ≤ 52 - significand.log2 ∧
      places ≤ exponent + 1074 ∧
      (places = 52 - significand.log2 ∨ exponent - places = -1074) := by
    refine ⟨min (52 - significand.log2) (exponent + 1074).toNat, by omega, by omega, by omega⟩
  have hs' : significand * 2 ^ places < 2 ^ 53 :=
    (Nat.mul_le_mul_left _ (Nat.pow_le_pow_right two_pos hplaces)).trans_lt hraised
  have hlead' : 2 ^ 52 ≤ significand * 2 ^ places ∨ exponent - places = -1074 := by
    rcases hends with rfl | hends
    · exact .inl hlead
    · exact .inr hends
  have hhigh : exponent - places ≤ 971 := by
    by_contra hbeyond
    have hfull : 2 ^ 52 ≤ significand * 2 ^ places := hlead'.resolve_right (by omega)
    refine absurd hlt (not_lt.mpr ?_)
    calc (2 : ℚ) ^ 1024 = ((2 ^ 52 : ℕ) : ℚ) * 2 ^ (972 : ℤ) := by
          rw [zpow_ofNat, Nat.cast_pow, Nat.cast_ofNat, ← pow_add]
      _ ≤ ((significand * 2 ^ places : ℕ) : ℚ) * 2 ^ (exponent - places) := by
          gcongr
          · norm_num
          · omega
      _ = significand * 2 ^ exponent := raised_mul_zpow _ _ _
  refine ⟨_, (value?_ofPattern negative hs' (by omega) hhigh hlead').trans ?_⟩
  rw [raised_mul_zpow]

/-- No number is larger than the largest significand with the largest exponent. -/
theorem abs_value_le {v : ℚ} (h : x.value? = some v) : |v| ≤ (2 ^ 53 - 1) * 2 ^ 971 := by
  obtain ⟨negative, significand, exponent, -, rfl, hs, -, hexponent⟩ := exists_dyadic h
  have hs' : (significand : ℚ) ≤ 2 ^ 53 - 1 := by
    have hsucc : (significand : ℚ) + 1 ≤ 2 ^ 53 := by exact_mod_cast Nat.succ_le_of_lt hs
    linarith
  rw [abs_signed_dyadic]
  calc (significand : ℚ) * 2 ^ exponent ≤ (2 ^ 53 - 1) * 2 ^ (971 : ℤ) := by
        gcongr
        norm_num
    _ = (2 ^ 53 - 1) * 2 ^ 971 := by rw [zpow_ofNat]

theorem value?_infinity (negative : Bool) : (infinity negative).value? = none := by
  cases negative <;> rfl

/-- **The bits of a small integer over a power of two** denote it exactly. -/
theorem value?_ofDyadic (negative : Bool) {magnitude places : ℕ} (hm : magnitude < 2 ^ 53)
    (hp : places ≤ 1022) :
    (ofDyadic negative magnitude places).value? =
      some (signed negative (magnitude / 2 ^ places)) := by
  rw [ofDyadic]
  split_ifs with h0
  · rw [value?_zero, h0]
    cases negative <;> simp
  · obtain ⟨hlead, hraised⟩ := raised_bounds h0 hm
    have hlog : magnitude.log2 < 53 := (Nat.log2_lt h0).mpr hm
    obtain ⟨exponent, hexponent⟩ : ∃ exponent : ℤ, exponent = -places - (52 - magnitude.log2 : ℕ) :=
      ⟨_, rfl⟩
    have hbiased : 1022 + magnitude.log2 - places = (exponent + 1074).toNat := by omega
    dsimp only
    rw [hbiased]
    refine (value?_ofPattern negative hraised (by omega) (by omega) (.inl hlead)).trans ?_
    rw [hexponent, raised_mul_zpow, zpow_neg, zpow_natCast, div_eq_mul_inv]

/-! ### Rounding to nearest -/

/-- **Rounding to nearest** as the standard has it: a number short of the middle between the
largest finite one and the next power of two goes to a finite number that is nearest, whichever
way a tie goes; a larger one becomes an infinity. -/
structure RoundsTo (q : ℚ) (x : Binary64) : Prop where
  /-- No finite number is nearer. -/
  finite : |q| < 2 ^ 1024 - 2 ^ 970 → ∃ v, x.value? = some v ∧
    ∀ (y : Binary64) (w : ℚ), y.value? = some w → |v - q| ≤ |w - q|
  /-- Beyond, there is the infinity with the sign of the number. -/
  infinite : 2 ^ 1024 - 2 ^ 970 ≤ |q| → x = infinity (q < 0)

/-- Finite numbers stay short of the middle. -/
theorem abs_value_lt {v : ℚ} (h : x.value? = some v) : |v| < 2 ^ 1024 - 2 ^ 970 := by
  have hpow : (2 : ℚ) ^ 1024 = 2 ^ 54 * 2 ^ 970 := by rw [← pow_add]
  have hpow' : (2 : ℚ) ^ 971 = 2 * 2 ^ 970 := by rw [← pow_succ']
  have hpos : (0 : ℚ) < 2 ^ 970 := by positivity
  refine (abs_value_le h).trans_lt ?_
  rw [hpow, hpow']
  generalize (2 : ℚ) ^ 970 = t at hpos
  linarith

/-- **A number that has a pattern is rounded to itself.** -/
theorem RoundsTo.value?_eq {q : ℚ} {y : Binary64} (h : RoundsTo q x) (hy : y.value? = some q) :
    x.value? = some q := by
  obtain ⟨v, hv, hnearest⟩ := h.finite (abs_value_lt hy)
  have hzero := hnearest y q hy
  rw [sub_self, abs_zero, abs_nonpos_iff, sub_eq_zero] at hzero
  rw [hv, hzero]

/-- A pattern of a number is a rounding of it. -/
theorem roundsTo_of_value {q : ℚ} (h : x.value? = some q) : RoundsTo q x := by
  constructor
  · intro _
    refine ⟨q, h, fun y w _ => ?_⟩
    rw [sub_self, abs_zero]
    exact abs_nonneg _
  · intro hbeyond
    exact absurd (abs_value_lt h) (not_lt.mpr hbeyond)

/-- **A number from `2 ^ 1024` on** is rounded to an infinity. -/
theorem RoundsTo.eq_infinity {q : ℚ} (h : RoundsTo q x) (hq : 2 ^ 1024 ≤ |q|) :
    x = infinity (q < 0) :=
  h.infinite ((sub_le_self _ (pow_nonneg zero_le_two _)).trans hq)

theorem roundsTo_infinity {q : ℚ} (hq : 2 ^ 1024 ≤ |q|) : RoundsTo q (infinity (q < 0)) := by
  constructor
  · intro hfinite
    have hle := (sub_le_self ((2 : ℚ) ^ 1024) (pow_nonneg zero_le_two 970)).trans hq
    exact absurd hfinite (not_lt.mpr hle)
  · exact fun _ => rfl

end Binary64

end ScaledGauss
