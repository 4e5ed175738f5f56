import ScaledGauss.Proofs.Denotation
import ScaledGauss.Proofs.FirstFailure

/-!
# Reals are converted correctly

A real becomes a raw value in one rounding: the number that its bits denote, times the scale, goes
to the nearest integer, a half away from zero, and the overflow policy makes a raw value of the
integer (`ScaledGauss.Format.ofReal_eq_ofUnits`). An integer that does not fit 64 bits is not
wrapped: it is an end of the range under a clamping policy, and refused under the others. In the
other direction nothing is rounded (`ScaledGauss.Format.value?_toReal`), and the way there and
back changes nothing (`ScaledGauss.Format.ofReal_toReal`).

**In floating point it is the same conversion.** Computed there, a conversion multiplies by the
scale, rounds the product to a whole number and asks whether that fits 64 bits
(`ScaledGauss.Format.Computes`, `ScaledGauss.Format.settle`). Three roundings could go wrong, and
none does. The scale is a power of two, so a product that is not too large has a pattern and is
rounded to itself, subnormal numbers included (`ScaledGauss.Binary64.exists_value_scaled`); one
that is too large becomes an infinity, and then the integer is far out of range, on the same side;
and the nearest integer of a number that has a pattern has one too
(`ScaledGauss.Binary64.exists_value_nearest`).
-/

namespace ScaledGauss

open Binary64

/-! ### The nearest integer -/

theorem nearestAway_self (z : ℤ) : NearestAway (z : ℚ) z := by
  constructor
  · intro w
    rw [sub_self, abs_zero]
    exact abs_nonneg _
  · intro w hw
    rw [sub_self, abs_zero, abs_eq_zero, sub_eq_zero] at hw
    rw [Int.cast_injective hw]

/-- The nearest integer is within half a unit. -/
theorem NearestAway.abs_sub_le {q : ℚ} {z : ℤ} (h : NearestAway q z) : |(z : ℚ) - q| ≤ 1 / 2 := by
  refine (h.nearest (round q)).trans ?_
  rw [abs_sub_comm]
  exact abs_sub_round q

theorem NearestAway.signed {q : ℚ} {z : ℤ} (h : NearestAway q z) (negative : Bool) :
    NearestAway (signed negative q) (if negative then -z else z) := by
  cases negative with
  | false => exact h
  | true => exact h.neg

namespace Format

variable {f : Format} {x : Binary64} {v : ℚ} {z : ℤ}

/-! ### One rounding -/

/-- **A dyadic rational in raw units** is the nearest integer to it, times the scale. -/
theorem nearestAway_unitsOf (f : Format) (negative : Bool) (significand : ℕ) (exponent : ℤ) :
    NearestAway (signed negative (significand * 2 ^ exponent) * 2 ^ f.fracBits)
      (f.unitsOf negative significand exponent) := by
  rw [signed_mul, mul_assoc, ← zpow_natCast, ← zpow_add₀ two_ne_zero, unitsOf]
  refine NearestAway.signed ?_ negative
  split_ifs with hshift
  · obtain ⟨places, hplaces⟩ := Int.eq_ofNat_of_zero_le hshift
    rw [hplaces, Int.toNat_natCast, zpow_natCast, pow2_eq_pow]
    have hexact := nearestAway_self ((significand * 2 ^ places : ℕ) : ℤ)
    push_cast at hexact ⊢
    exact hexact
  · obtain ⟨places, hplaces⟩ := Int.eq_ofNat_of_zero_le (Int.neg_nonneg.mpr (not_le.mp hshift).le)
    have hrounded := nearestAway_nearestUp (pow2_pos places) significand
    rw [hplaces, Int.toNat_natCast, ← neg_neg (exponent + (f.fracBits : ℤ)), hplaces, zpow_neg,
      zpow_natCast, ← div_eq_mul_inv]
    rw [pow2_eq_pow] at hrounded ⊢
    push_cast at hrounded
    exact hrounded

/-- **What becomes of a whole number of raw units**: in 64 bits what the overflow policy makes of
it, and beyond an end of the range or a refusal. -/
def ofUnits (f : Format) (z : ℤ) : Except Error Scaled :=
  if -2 ^ 63 ≤ z ∧ z < 2 ^ 63 then f.narrow conversion z
  else if f.overflow = .saturating then .ok (if 0 < z then .greatest else .least)
  else .error (.overflow conversion)

/-- **A real that is a number** goes to the nearest whole number of raw units. -/
theorem ofReal_eq_ofUnits (hv : x.value? = some v) (hz : NearestAway (v * 2 ^ f.fracBits) z) :
    f.ofReal x = f.ofUnits z := by
  obtain ⟨negative, significand, exponent, hx, rfl, -⟩ := exists_dyadic hv
  obtain rfl := hz.unique (f.nearestAway_unitsOf negative significand exponent)
  rw [ofReal, hx, ofUnits]
  refine if_congr Iff.rfl rfl ?_
  cases f.overflow <;> rfl

theorem ofReal_of_none (h : x.value? = none) : f.ofReal x = .error .notFinite := by
  rw [ofReal]
  cases hx : x.denote with
  | finite negative significand exponent =>
    cases h.symm.trans (value?_of_finite hx)
  | infinite negative => rfl
  | undefined => rfl

theorem exists_nearestAway (f : Format) (hv : x.value? = some v) :
    ∃ z, NearestAway (v * 2 ^ f.fracBits) z := by
  obtain ⟨negative, significand, exponent, -, rfl, -⟩ := exists_dyadic hv
  exact ⟨_, f.nearestAway_unitsOf negative significand exponent⟩

/-! ### There and back -/

/-- **A raw value as a real** is exact. -/
theorem value?_toReal (f : Format) (a : Scaled) :
    (f.toReal a).value? = some ((a.val : ℚ) / 2 ^ f.fracBits) := by
  have hsize := a.natAbs_val_le
  have hk : f.fracBits ≤ 30 := f.fracBits_le
  rw [toReal, value?_ofDyadic _ (by omega) (by omega), div_eq_mul_inv, ← signed_mul,
    signed_natAbs, ← div_eq_mul_inv]

theorem value?_scale (f : Format) : f.scale.value? = some (2 ^ f.fracBits) := by
  have hsize := f.pow2_fracBits_le
  rw [scale, value?_ofDyadic _ (by omega) (by omega), pow2_eq_pow]
  simp

/-- **There and back again** a raw value is what it was. -/
theorem ofReal_toReal (f : Format) (a : Scaled) : f.ofReal (f.toReal a) = .ok a := by
  have hscale : (a.val : ℚ) / 2 ^ f.fracBits * 2 ^ f.fracBits = a.val :=
    div_mul_cancel₀ _ (by positivity)
  have hnearest : NearestAway ((a.val : ℚ) / 2 ^ f.fracBits * 2 ^ f.fracBits) a.val := by
    rw [hscale]
    exact nearestAway_self a.val
  have hsize := a.natAbs_val_le
  rw [ofReal_eq_ofUnits (f.value?_toReal a) hnearest, ofUnits, if_pos (by omega),
    narrow_of_inRange _ _ a.inRange_val, Scaled.wrap_val]

end Format

/-! ### The same in floating point -/

namespace Binary64

variable {x : Binary64} {v : ℚ} {z : ℤ}

/-- **Scaling by a power of two is exact**, unless the result is too large. -/
theorem exists_value_scaled (hv : x.value? = some v) (places : ℕ)
    (hlt : |v * 2 ^ places| < 2 ^ 1024) :
    ∃ y : Binary64, y.value? = some (v * 2 ^ places) := by
  obtain ⟨negative, significand, exponent, -, rfl, hs, hlow, -⟩ := exists_dyadic hv
  have hscaled : signed negative (significand * 2 ^ exponent) * 2 ^ places =
      signed negative (significand * 2 ^ (exponent + places)) := by
    rw [signed_mul, mul_assoc, zpow_add₀ two_ne_zero, zpow_natCast]
  rw [hscaled, abs_signed_dyadic] at hlt
  rw [hscaled]
  exact exists_value negative hs (by omega) hlt

/-- An integer of 53 bits has a pattern. -/
theorem exists_value_integer (hz : z.natAbs < 2 ^ 53) :
    ∃ r : Binary64, r.value? = some (z : ℚ) := by
  have hlt : (z.natAbs : ℚ) * 2 ^ (0 : ℤ) < 2 ^ 1024 := by
    have hz' : (z.natAbs : ℚ) < 2 ^ 53 := by exact_mod_cast hz
    rw [zpow_zero, mul_one]
    exact hz'.trans_le (pow_le_pow_right₀ one_le_two (by decide))
  obtain ⟨r, hr⟩ := exists_value (decide (z < 0)) hz (by decide) hlt
  rw [zpow_zero, mul_one, signed_natAbs] at hr
  exact ⟨r, hr⟩

/-- **The nearest integer of a number has a pattern**: a number with a fractional part is small. -/
theorem exists_value_nearest (hv : x.value? = some v) (hz : NearestAway v z) :
    ∃ r : Binary64, r.value? = some (z : ℚ) := by
  obtain ⟨negative, significand, exponent, -, rfl, hs, -⟩ := exists_dyadic hv
  rcases le_or_gt 0 exponent with hexponent | hexponent
  · -- an integer is its own nearest integer
    obtain ⟨places, rfl⟩ := Int.eq_ofNat_of_zero_le hexponent
    have hinteger : (significand : ℚ) * 2 ^ (places : ℤ) =
        ((significand * 2 ^ places : ℕ) : ℤ) := by
      push_cast
      rw [zpow_natCast]
    rw [hinteger] at hz hv
    obtain rfl := hz.unique ((nearestAway_self _).signed negative)
    exact ⟨x, hv.trans (congrArg some (signed_cast _ _))⟩
  · have hhalf : (significand : ℚ) * 2 ^ exponent ≤ significand / 2 := by
      calc (significand : ℚ) * 2 ^ exponent ≤ significand * 2 ^ (-1 : ℤ) := by
            gcongr
            · norm_num
            · omega
        _ = significand / 2 := by rw [zpow_neg_one, div_eq_mul_inv]
    have hsmall : z.natAbs < 2 ^ 53 := by
      have htriangle := abs_sub_abs_le_abs_sub (z : ℚ)
        (signed negative (significand * 2 ^ exponent))
      rw [abs_signed_dyadic] at htriangle
      have hrounded := hz.abs_sub_le
      have hs' : (significand : ℚ) < 2 ^ 53 := by exact_mod_cast hs
      have hcast : (z.natAbs : ℚ) = |(z : ℚ)| := by rw [Nat.cast_natAbs, Int.cast_abs]
      have hlt : (z.natAbs : ℚ) < 2 ^ 53 := by linarith
      exact_mod_cast hlt
    exact exists_value_integer hsmall

/-- **Rounding to a whole number**: to the nearest integer, a half away from zero; an infinity
stays. -/
structure RoundsAway (x r : Binary64) : Prop where
  /-- A number becomes an integer. -/
  finite : ∀ v, x.value? = some v → ∃ z : ℤ, NearestAway v z ∧ r.value? = some (z : ℚ)
  /-- An infinity stays. -/
  infinite : ∀ negative, x = infinity negative → r = x

theorem roundsAway_infinity (negative : Bool) :
    RoundsAway (infinity negative) (infinity negative) := by
  refine ⟨fun v hv => ?_, fun _ _ => rfl⟩
  cases (value?_infinity negative).symm.trans hv

/-- **A number as a 64-bit integer**, cut toward zero, if that fits. -/
def toInt64? (x : Binary64) : Option ℤ :=
  x.value?.bind fun v =>
    if -2 ^ 63 ≤ towardZero v ∧ towardZero v < 2 ^ 63 then some (towardZero v) else none

/-- Whether a number, or an infinity, is greater than zero. -/
def exceedsZero (x : Binary64) : Bool :=
  match x.value? with
  | some v => 0 < v
  | none => x = .infinity false

end Binary64

namespace Format

variable {f : Format} {x product rounded : Binary64} {v : ℚ} {z : ℤ}

/-- **The intermediate results of a conversion in floating point**: a product with the scale, and
the product rounded to a whole number. -/
structure Computes (f : Format) (v : ℚ) (product rounded : Binary64) : Prop where
  /-- The product is rounded to nearest. -/
  nearest : RoundsTo (v * 2 ^ f.fracBits) product
  /-- Then it is rounded to a whole number. -/
  whole : RoundsAway product rounded

/-- **What becomes of the rounded product**: a 64-bit integer goes to the overflow policy; anything
else is an end of the range by its sign under a clamping policy, and refused under the others. -/
def settle (f : Format) (rounded : Binary64) : Except Error Scaled :=
  match rounded.toInt64? with
  | some wide => f.narrow conversion wide
  | none =>
    if f.overflow = .saturating then .ok (if rounded.exceedsZero then .greatest else .least)
    else .error (.overflow conversion)

theorem settle_of_value (h : rounded.value? = some (z : ℚ)) : f.settle rounded = f.ofUnits z := by
  have hcut : towardZero (z : ℚ) = z := by simp [towardZero]
  have hsign : rounded.exceedsZero = decide (0 < z) := by
    rw [exceedsZero, h]
    exact decide_eq_decide.mpr Int.cast_pos
  rw [settle, ofUnits, toInt64?, h, Option.bind_some, hcut, hsign]
  by_cases hfits : -2 ^ 63 ≤ z ∧ z < 2 ^ 63
  · rw [if_pos hfits, if_pos hfits]
  · rw [if_neg hfits, if_neg hfits]
    simp only [decide_eq_true_eq]

theorem settle_infinity (f : Format) (negative : Bool) :
    f.settle (.infinity negative) =
      if f.overflow = .saturating then .ok (if negative then .least else .greatest)
      else .error (.overflow conversion) := by
  have hsign : (infinity negative).exceedsZero = !negative := by
    rw [exceedsZero, value?_infinity]
    cases negative <;> decide
  rw [settle, toInt64?, value?_infinity, Option.bind_none, hsign]
  cases negative <;> rfl

/-- A product that is far too large is so after rounding, on the same side. -/
theorem ofUnits_of_large {q : ℚ} (hz : NearestAway q z) (hq : 2 ^ 64 ≤ |q|) :
    f.ofUnits z = if f.overflow = .saturating then .ok (if q < 0 then .least else .greatest)
      else .error (.overflow conversion) := by
  obtain ⟨hlow, hhigh⟩ := abs_le.mp hz.abs_sub_le
  rw [ofUnits]
  rcases lt_or_ge q 0 with hsign | hsign
  · rw [abs_of_neg hsign] at hq
    have hbelow : (z : ℚ) < -2 ^ 63 := by linarith
    have hbelow' : z < -2 ^ 63 := by exact_mod_cast hbelow
    rw [if_neg (by omega), if_pos hsign, if_neg (not_lt.mpr (by omega : z ≤ 0))]
  · rw [abs_of_nonneg hsign] at hq
    have habove : (2 ^ 63 : ℚ) ≤ z := by linarith
    have habove' : 2 ^ 63 ≤ z := by exact_mod_cast habove
    rw [if_neg (by omega), if_neg (not_lt.mpr hsign), if_pos (by omega : 0 < z)]

/-- **A conversion computed in floating point** has the outcome of the exact one. -/
theorem Computes.ofReal_eq (hv : x.value? = some v) (h : f.Computes v product rounded) :
    f.ofReal x = f.settle rounded := by
  obtain ⟨z, hz⟩ := f.exists_nearestAway hv
  rw [ofReal_eq_ofUnits hv hz]
  by_cases hlt : |v * 2 ^ f.fracBits| < 2 ^ 1024
  · obtain ⟨y, hy⟩ := exists_value_scaled hv f.fracBits hlt
    obtain ⟨z', hz', hrounded⟩ := h.whole.finite _ (h.nearest.value?_eq hy)
    rw [settle_of_value hrounded, hz.unique hz']
  · have hlarge : 2 ^ 1024 ≤ |v * 2 ^ f.fracBits| := not_lt.mp hlt
    have hproduct := h.nearest.eq_infinity hlarge
    have hrounded := h.whole.infinite _ hproduct
    have hfar : (2 : ℚ) ^ 64 ≤ 2 ^ 1024 := pow_le_pow_right₀ one_le_two (by decide)
    rw [hrounded, hproduct, settle_infinity, ofUnits_of_large hz (hfar.trans hlarge)]
    simp only [decide_eq_true_eq]

/-- **The intermediate results exist.** -/
theorem exists_computes (f : Format) (hv : x.value? = some v) :
    ∃ product rounded, f.Computes v product rounded := by
  by_cases hlt : |v * 2 ^ f.fracBits| < 2 ^ 1024
  · obtain ⟨product, hproduct⟩ := exists_value_scaled hv f.fracBits hlt
    obtain ⟨z, hz⟩ := f.exists_nearestAway hv
    obtain ⟨rounded, hrounded⟩ := exists_value_nearest hproduct hz
    refine ⟨product, rounded, roundsTo_of_value hproduct, ⟨fun w hw => ?_, ?_⟩⟩
    · obtain rfl := Option.some.inj (hproduct.symm.trans hw)
      exact ⟨z, hz, hrounded⟩
    · rintro negative rfl
      cases (value?_infinity negative).symm.trans hproduct
  · exact ⟨_, _, roundsTo_infinity (not_lt.mp hlt), roundsAway_infinity _⟩

/-! ### The conversions -/

/-- **Reals are converted correctly.** What is not a number is refused. A number, times the scale,
goes to the nearest integer, a half away from zero; what fits 64 bits is made a raw value by the
overflow policy, and what does not is an end of the range by its sign if the policy clamps, and
refused otherwise. Computed in floating point – a product with the scale, rounded to nearest, then
rounded to a whole number and taken as a 64-bit integer – the conversion has the same outcome.
A raw value as a real is exact, which is also what a quotient by the scale is rounded to, and goes
back to itself. Many reals are converted one by one, the first that cannot be deciding the error,
and raw values stay. -/
theorem ofReal_correctly_rounded (f : Format) (x : Binary64) (a : Scaled) :
    (x.value? = none → f.ofReal x = .error .notFinite) ∧
    (∀ v, x.value? = some v → ∃ z, NearestAway (v * 2 ^ f.fracBits) z ∧
      (-2 ^ 63 ≤ z → z < 2 ^ 63 →
        ∀ outcome, f.ofReal x = outcome ↔ f.overflow.Makes "conversion" z outcome) ∧
      (z < -2 ^ 63 ∨ 2 ^ 63 ≤ z → f.ofReal x =
        if f.overflow = .saturating then .ok (if 0 < z then .greatest else .least)
        else .error (.overflow "conversion"))) ∧
    (∀ v, x.value? = some v → (∃ product rounded, f.Computes v product rounded) ∧
      ∀ product rounded, f.Computes v product rounded → f.ofReal x = f.settle rounded) ∧
    f.scale.value? = some (2 ^ f.fracBits) ∧
    (f.toReal a).value? = some ((a.val : ℚ) / 2 ^ f.fracBits) ∧
    (∀ quotient, RoundsTo ((a.val : ℚ) / 2 ^ f.fracBits) quotient →
      quotient.value? = (f.toReal a).value?) ∧
    f.ofReal (f.toReal a) = .ok a ∧
    (∀ reals results, (Values.real reals).scaled f = .ok results ↔
      List.Forall₂ (fun x r => f.ofReal x = .ok r) reals results) ∧
    (∀ reals e, (Values.real reals).scaled f = .error e ↔
      FirstFails (fun x e => f.ofReal x = .error e) reals e) ∧
    ∀ raws, (Values.raw raws).scaled f = .ok raws := by
  refine ⟨ofReal_of_none, fun v hv => ?_, fun v hv => ?_, f.value?_scale, f.value?_toReal a, ?_,
    f.ofReal_toReal a, fun _ _ => mapM_eq_ok_iff, fun _ _ => mapM_eq_error_iff, fun _ => rfl⟩
  · obtain ⟨z, hz⟩ := f.exists_nearestAway hv
    refine ⟨z, hz, fun hlow hhigh outcome => ?_, fun hbeyond => ?_⟩
    · rw [ofReal_eq_ofUnits hv hz, ofUnits, if_pos ⟨hlow, hhigh⟩, f.makes_iff]
      rfl
    · rw [ofReal_eq_ofUnits hv hz, ofUnits, if_neg (by omega)]
      rfl
  · exact ⟨f.exists_computes hv, fun product rounded h => h.ofReal_eq hv⟩
  · intro quotient h
    rw [h.value?_eq (f.value?_toReal a), f.value?_toReal]

/-- The largest number there is. -/
def largestReal : Binary64 := .ofPattern false (infinitePattern - 1)

/-- At the finest scale: the least integer of 64 bits, which is a multiple of `2 ^ 32`, and the
first one above them, which is not wrapped; a half below zero; the largest number there is, whose
product with the scale is infinite; and what is not a number. -/
theorem ofReal_correctly_rounded_extremes :
    ((ofDyadic true 8589934592 0).value? = some (-2 ^ 33) ∧
      (finestFormat.withOverflow .wrapping).ofReal (.ofDyadic true 8589934592 0) = .ok .zero) ∧
    ((ofDyadic false 8589934592 0).value? = some (2 ^ 33) ∧
      (finestFormat.withOverflow .wrapping).ofReal (.ofDyadic false 8589934592 0) =
        .error (.overflow "conversion")) ∧
    ((ofDyadic true 3 31).value? = some (-3 / 2 ^ 31) ∧
      finestFormat.ofReal (.ofDyadic true 3 31) = .ok ⟨-2⟩) ∧
    ((∃ v, largestReal.value? = some v ∧
        (finestFormat.withOverflow .saturating).Computes v (infinity false) (infinity false)) ∧
      (finestFormat.withOverflow .saturating).ofReal largestReal = .ok .greatest) ∧
    nan.value? = none ∧ finestFormat.ofReal .nan = .error .notFinite := by
  have hleast : (ofDyadic true 8589934592 0).value? = some (-2 ^ 33) := by
    rw [value?_ofDyadic true (by decide) (by decide)]
    norm_num
  have hgreatest : (ofDyadic false 8589934592 0).value? = some (2 ^ 33) := by
    rw [value?_ofDyadic false (by decide) (by decide)]
    norm_num
  have hhalf : (ofDyadic true 3 31).value? = some (-3 / 2 ^ 31) := by
    rw [value?_ofDyadic true (by decide) (by decide)]
    norm_num
  have hdenote : largestReal.denote = .finite false (2 ^ 53 - 1) 971 := by decide +kernel
  have hlargest := value?_of_finite hdenote
  rw [signed_false, zpow_ofNat] at hlargest
  have hcomputes : (finestFormat.withOverflow .saturating).Computes
      (((2 ^ 53 - 1 : ℕ) : ℚ) * 2 ^ 971) (infinity false) (infinity false) := by
    have hpow : (2 : ℚ) ^ 1024 = 2 ^ 53 * 2 ^ 971 := by rw [← pow_add]
    have hpos : (0 : ℚ) < 2 ^ 971 := pow_pos two_pos _
    have hnonneg : ¬((2 ^ 53 - 1 : ℕ) : ℚ) * 2 ^ 971 * 2 ^ 30 < 0 := by
      generalize (2 : ℚ) ^ 971 = t at hpos
      norm_num
      linarith
    have hlarge : (2 : ℚ) ^ 1024 ≤ |((2 ^ 53 - 1 : ℕ) : ℚ) * 2 ^ 971 * 2 ^ 30| := by
      rw [abs_of_nonneg (not_lt.mp hnonneg), hpow]
      generalize (2 : ℚ) ^ 971 = t at hpos
      norm_num
      linarith
    have hnearest := roundsTo_infinity hlarge
    rw [decide_eq_false hnonneg] at hnearest
    exact ⟨hnearest, roundsAway_infinity false⟩
  have hnan : nan.value? = none := rfl
  refine ⟨⟨hleast, ?_⟩, ⟨hgreatest, ?_⟩, ⟨hhalf, ?_⟩, ⟨⟨_, hlargest, hcomputes⟩, ?_⟩, hnan, ?_⟩
  · obtain ⟨-, hvalue, -⟩ := ofReal_correctly_rounded (finestFormat.withOverflow .wrapping)
      (.ofDyadic true 8589934592 0) .zero
    obtain ⟨z, hz, hfits, -⟩ := hvalue _ hleast
    have hunits : NearestAway ((-2 ^ 33 : ℚ) * 2 ^ 30) (-2 ^ 63) := by
      have hexact := nearestAway_self (-2 ^ 63)
      norm_num at hexact ⊢
      exact hexact
    obtain rfl := hz.unique hunits
    exact (hfits (by decide) (by decide) _).mpr (.wrapped (by decide))
  · obtain ⟨-, hvalue, -⟩ := ofReal_correctly_rounded (finestFormat.withOverflow .wrapping)
      (.ofDyadic false 8589934592 0) .zero
    obtain ⟨z, hz, -, hbeyond⟩ := hvalue _ hgreatest
    have hunits : NearestAway ((2 ^ 33 : ℚ) * 2 ^ 30) (2 ^ 63) := by
      have hexact := nearestAway_self (2 ^ 63)
      norm_num at hexact ⊢
      exact hexact
    obtain rfl := hz.unique hunits
    exact (hbeyond (.inr le_rfl)).trans rfl
  · obtain ⟨-, hvalue, -⟩ := ofReal_correctly_rounded finestFormat (.ofDyadic true 3 31) .zero
    obtain ⟨z, hz, hfits, -⟩ := hvalue _ hhalf
    have hunits : NearestAway ((-3 / 2 ^ 31 : ℚ) * 2 ^ 30) (-2) := by
      have hhalves := (nearestAway_nearestUp two_pos 3).neg
      norm_num at hhalves ⊢
      exact hhalves
    obtain rfl := hz.unique hunits
    exact (hfits (by decide) (by decide) _).mpr (.kept (by decide))
  · obtain ⟨-, -, hfloats, -⟩ := ofReal_correctly_rounded
      (finestFormat.withOverflow .saturating) largestReal .zero
    rw [(hfloats _ hlargest).2 _ _ hcomputes, settle_infinity]
    rfl
  · exact (ofReal_correctly_rounded finestFormat .nan .zero).1 hnan

end Format

end ScaledGauss
