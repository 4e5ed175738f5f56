import ScaledGauss.Decimal
import ScaledGauss.Proofs.Denotation

/-!
# The nearest real

The real nearest to a fraction is found by choosing a unit `2 ^ e`, in which the fraction has 53
bits before the point or the unit is the least there is, and by rounding the number of units to a
whole number, a tie going to the even one. Here this is shown to be a rounding to nearest as the
standard has it (`ScaledGauss.Binary64.RoundsTo`), for every fraction.

The finite reals are of two kinds then.

* **On the grid** are the multiples of the unit, and of these a nearest whole number of units is a
  nearest one.
* **Off the grid** a real has a finer unit, so it lies below `2 ^ (e + 52)`. That is on the grid
  and no further away, since the fraction is not below it.

A whole number of units may have one bit too many after rounding. The pattern carries over into the
exponent then, and denotes the same number (`ScaledGauss.Binary64.value?_ofUnits`).

Decimal numerals are read by this rounding. Two short cuts keep it from forming powers of ten that
are out of proportion, and both are justified here (`ScaledGauss.Decimal.roundsTo_toBinary64`).

## Main results

– `ScaledGauss.Binary64.roundsTo_ofRatio`: the real nearest to a fraction;
– `ScaledGauss.Binary64.exists_times?`, `ScaledGauss.Binary64.exists_over?`: products and
  quotients;
– `ScaledGauss.Decimal.roundsTo_toBinary64`: the real nearest to a numeral.
-/

namespace ScaledGauss

/-! ### The nearest whole number -/

section NearestEven

variable {num den : ℕ}

theorem nearestEven_bounds (num : ℕ) (hden : 0 < den) :
    2 * den * nearestEven num den ≤ 2 * num + den ∧
      2 * num ≤ 2 * den * nearestEven num den + den := by
  have hdivide : den * (num / den) + num % den = num := Nat.div_add_mod num den
  have hlt : num % den < den := Nat.mod_lt num hden
  rw [nearestEven]
  split_ifs with hup
  · rw [Nat.mul_assoc, Nat.mul_succ]
    omega
  · rw [Nat.mul_assoc]
    omega

/-- **A tie goes to the even one**: from half a unit below an even number on, the nearest whole
number is not below it. -/
theorem le_nearestEven {k : ℕ} (hden : 0 < den) (hk : k % 2 = 0)
    (h : 2 * den * k ≤ 2 * num + den) : k ≤ nearestEven num den := by
  have hdivide : den * (num / den) + num % den = num := Nat.div_add_mod num den
  have hlt : num % den < den := Nat.mod_lt num hden
  rw [Nat.mul_assoc] at h
  rw [nearestEven]
  rcases Nat.lt_or_ge (num / den) k with hbelow | habove
  · -- the quotient is the odd number below `k`, and at least half a unit remains
    have hsucc : den * (num / den) + den ≤ den * k := Nat.mul_le_mul_left den hbelow
    have hquotient : k = num / den + 1 := by
      refine le_antisymm ?_ hbelow
      by_contra! hbeyond
      have hmul : den * (num / den) + den + den ≤ den * k := Nat.mul_le_mul_left den hbeyond
      omega
    rw [if_pos (by omega), hquotient]
  · split_ifs <;> omega

/-- The nearest whole number is at most a half away. -/
theorem abs_nearestEven_sub_le (hden : 0 < den) :
    |(nearestEven num den : ℚ) - num / den| ≤ 1 / 2 := by
  obtain ⟨hle, hge⟩ := nearestEven_bounds num hden
  have hpos : (0 : ℚ) < den := by exact_mod_cast hden
  have hle' : 2 * (den : ℚ) * nearestEven num den ≤ 2 * num + den := by exact_mod_cast hle
  have hge' : 2 * (num : ℚ) ≤ 2 * den * nearestEven num den + den := by exact_mod_cast hge
  have hscaled : ((nearestEven num den : ℚ) - num / den) * den =
      den * nearestEven num den - num := by
    rw [sub_mul, div_mul_cancel₀ _ hpos.ne', mul_comm]
  rw [← mul_le_mul_iff_left₀ hpos, ← abs_of_pos hpos, ← abs_mul, abs_of_pos hpos, hscaled, abs_le]
  constructor <;> linarith

end NearestEven

namespace Binary64

/-! ### The unit -/

section Unit

variable {num den : ℕ}

/-- A fraction in units of a power of two. -/
theorem scaleDown_spec (num : ℕ) (hden : 0 < den) (exponent : ℤ) :
    0 < (scaleDown num den exponent).2 ∧
      ((scaleDown num den exponent).1 : ℚ) / (scaleDown num den exponent).2 =
        num / den / 2 ^ exponent := by
  rw [scaleDown]
  split_ifs with hexponent
  · obtain ⟨k, rfl⟩ := Int.eq_ofNat_of_zero_le hexponent
    refine ⟨Nat.mul_pos hden (pow2_pos _), ?_⟩
    rw [Int.toNat_natCast, pow2_eq_pow, zpow_natCast, div_div]
    push_cast
    rfl
  · obtain ⟨k, rfl⟩ : ∃ k : ℕ, exponent = -k := ⟨(-exponent).toNat, by omega⟩
    refine ⟨hden, ?_⟩
    rw [neg_neg, Int.toNat_natCast, pow2_eq_pow, zpow_neg, zpow_natCast, div_inv_eq_mul,
      div_mul_eq_mul_div]
    push_cast
    rfl

/-- The lengths of numerator and denominator bound a fraction. -/
theorem lt_div_and_div_lt (hnum : num ≠ 0) (hden : den ≠ 0) :
    (2 : ℚ) ^ ((num.log2 : ℤ) - den.log2 - 1) < num / den ∧
      (num : ℚ) / den < 2 ^ ((num.log2 : ℤ) - den.log2 + 1) := by
  have hpos : (0 : ℚ) < den := by exact_mod_cast Nat.pos_of_ne_zero hden
  have hnum_le : (2 : ℚ) ^ (num.log2 : ℤ) ≤ num := by exact_mod_cast Nat.log2_self_le hnum
  have hnum_lt : (num : ℚ) < 2 ^ ((num.log2 : ℤ) + 1) := by exact_mod_cast Nat.lt_log2_self
  have hden_le : (2 : ℚ) ^ (den.log2 : ℤ) ≤ den := by exact_mod_cast Nat.log2_self_le hden
  have hden_lt : (den : ℚ) < 2 ^ ((den.log2 : ℤ) + 1) := by exact_mod_cast Nat.lt_log2_self
  constructor
  · rw [lt_div_iff₀ hpos]
    calc (2 : ℚ) ^ ((num.log2 : ℤ) - den.log2 - 1) * den
        < 2 ^ ((num.log2 : ℤ) - den.log2 - 1) * 2 ^ ((den.log2 : ℤ) + 1) := by gcongr
      _ = 2 ^ (num.log2 : ℤ) := by
          rw [← zpow_add₀ two_ne_zero]
          congr 1
          omega
      _ ≤ num := hnum_le
  · rw [div_lt_iff₀ hpos]
    calc (num : ℚ) < 2 ^ ((num.log2 : ℤ) + 1) := hnum_lt
      _ = 2 ^ ((num.log2 : ℤ) - den.log2 + 1) * 2 ^ (den.log2 : ℤ) := by
          rw [← zpow_add₀ two_ne_zero]
          congr 1
          omega
      _ ≤ 2 ^ ((num.log2 : ℤ) - den.log2 + 1) * den := by gcongr

/-- **The unit of a fraction**: there are 53 bits of units before the point, or fewer if the unit is
the least one. -/
theorem exponentFor_spec (hnum : 0 < num) (hden : 0 < den) :
    -1074 ≤ exponentFor num den ∧ (num : ℚ) / den < 2 ^ (exponentFor num den + 53) ∧
      (exponentFor num den = -1074 ∨ (2 : ℚ) ^ (exponentFor num den + 52) ≤ num / den) := by
  obtain ⟨hlow, hhigh⟩ := lt_div_and_div_lt hnum.ne' hden.ne'
  obtain ⟨guess, hguess⟩ : ∃ guess : ℤ, (num.log2 : ℤ) - den.log2 - 52 = guess := ⟨_, rfl⟩
  obtain ⟨hd, hscaled⟩ := scaleDown_spec num hden guess
  -- the exponent before it is raised to the least one
  obtain ⟨exact, hexact⟩ : ∃ exact, (if (scaleDown num den guess).1 <
      pow2 52 * (scaleDown num den guess).2 then guess - 1 else guess) = exact := ⟨_, rfl⟩
  have hbounds : (2 : ℚ) ^ (exact + 52) ≤ num / den ∧ (num : ℚ) / den < 2 ^ (exact + 53) := by
    have hshort : (scaleDown num den guess).1 < pow2 52 * (scaleDown num den guess).2 ↔
        (num : ℚ) / den < 2 ^ (guess + 52) := by
      have hd' : (0 : ℚ) < (scaleDown num den guess).2 := by exact_mod_cast hd
      have hpow : (2 : ℚ) ^ 52 * 2 ^ guess = 2 ^ (guess + 52) := two_pow_mul_zpow 52 guess
      rw [← hpow, ← div_lt_iff₀ (by positivity), ← hscaled, div_lt_iff₀ hd', pow2_eq_pow]
      exact_mod_cast Iff.rfl
    rw [← hexact]
    split_ifs with hless
    · refine ⟨?_, (hshort.mp hless).trans_le (zpow_le_zpow_right₀ one_le_two (by omega))⟩
      exact (zpow_le_zpow_right₀ one_le_two (by omega)).trans hlow.le
    · refine ⟨not_lt.mp (mt hshort.mpr hless), hhigh.trans_le ?_⟩
      exact zpow_le_zpow_right₀ one_le_two (by omega)
  have heq : exponentFor num den = if exact < -1074 then -1074 else exact := by
    rw [← hexact, ← hguess]
    rfl
  rw [heq]
  split_ifs with hleast
  · refine ⟨le_rfl, hbounds.2.trans_le ?_, .inl rfl⟩
    exact zpow_le_zpow_right₀ one_le_two (by omega)
  · exact ⟨by omega, hbounds.2, .inr hbounds.1⟩

end Unit

/-! ### On the grid and off it -/

section Grid

variable {x : Binary64} {v : ℚ} {m : ℕ} {e : ℤ}

/-- **A real is a whole number of units, or has a finer unit**, with either sign. -/
theorem exists_units_or_lt (h : x.value? = some v) (he : -1074 ≤ e) (negative : Bool) :
    (∃ k : ℤ, signed negative v / 2 ^ e = k) ∨
      -1074 < e ∧ |signed negative v / 2 ^ e| < 2 ^ 52 := by
  obtain ⟨sign, significand, exponent, -, rfl, hs, hleast, -⟩ := exists_dyadic h
  rw [signed_signed]
  rcases le_or_gt e exponent with hle | hlt
  · left
    obtain ⟨k, hk⟩ := Int.eq_ofNat_of_zero_le (sub_nonneg.mpr hle)
    have hunits : signed (negative ^^ sign) (significand * 2 ^ exponent) / 2 ^ e =
        signed (negative ^^ sign) ((significand * 2 ^ k : ℕ) : ℤ) := by
      rw [div_eq_mul_inv, signed_mul, mul_assoc, ← zpow_neg, ← zpow_add₀ two_ne_zero,
        ← sub_eq_add_neg, hk, zpow_natCast]
      push_cast
      rfl
    exact ⟨_, hunits.trans (signed_cast _ _)⟩
  · right
    refine ⟨by omega, ?_⟩
    have hpos : (0 : ℚ) < 2 ^ e := by positivity
    have hs' : (significand : ℚ) < 2 ^ 53 := by exact_mod_cast hs
    rw [abs_div, abs_signed_dyadic, abs_of_pos hpos, div_lt_iff₀ hpos]
    calc (significand : ℚ) * 2 ^ exponent < 2 ^ 53 * 2 ^ exponent := by gcongr
      _ ≤ 2 ^ 53 * 2 ^ (e - 1) := by
          gcongr
          · norm_num
          · omega
      _ = 2 ^ 52 * 2 ^ e := by
          rw [zpow_sub_one₀ two_ne_zero]
          ring

/-- **A nearest whole number is at least as near as what is off the grid**, if the fraction is not
below the grid. -/
theorem abs_sub_le_of_units {r u : ℚ} (hm : |(m : ℚ) - r| ≤ 1 / 2)
    (hu : (∃ k : ℤ, u = k) ∨ 2 ^ 52 ≤ r ∧ |u| < 2 ^ 52) : |(m : ℚ) - r| ≤ |u - r| := by
  have hwhole : ∀ k : ℤ, |(m : ℚ) - r| ≤ |(k : ℚ) - r| := by
    intro k
    by_cases hk : k = m
    · rw [hk, Int.cast_natCast]
    · have hone : (1 : ℚ) ≤ |(k : ℚ) - m| := by
        exact_mod_cast Int.one_le_abs (sub_ne_zero.mpr hk)
      have htriangle := abs_sub_le (k : ℚ) r m
      rw [abs_sub_comm r] at htriangle
      linarith
  obtain ⟨k, rfl⟩ | ⟨hr, hoff⟩ := hu
  · exact hwhole k
  · have hedge := hwhole (2 ^ 52)
    have hbelow := (le_abs_self u).trans_lt hoff
    rw [Int.cast_pow, Int.cast_ofNat, abs_of_nonpos (sub_nonpos.mpr hr), neg_sub] at hedge
    calc |(m : ℚ) - r| ≤ r - 2 ^ 52 := hedge
      _ ≤ r - u := by linarith
      _ ≤ |u - r| := by
          rw [abs_sub_comm]
          exact le_abs_self _

/-- **The pattern of a whole number of units.** With one bit too many it is a power of two, and the
pattern has carried over into the exponent. -/
theorem value?_ofUnits (negative : Bool) (hm : m ≤ 2 ^ 53) (he : -1074 ≤ e)
    (hlead : 2 ^ 52 ≤ m ∨ e = -1074)
    (hfinite : (e + 1074).toNat * pow2 52 + m < infinitePattern) :
    (ofPattern negative ((e + 1074).toNat * pow2 52 + m)).value? =
      some (signed negative (m * 2 ^ e)) := by
  have hbound : infinitePattern = 2047 * 2 ^ 52 := rfl
  rw [pow2_eq_pow, hbound] at hfinite
  rcases Nat.lt_or_ge m (2 ^ 53) with hshort | hlong
  · exact value?_ofPattern negative hshort he (by omega) hlead
  · obtain rfl : m = 2 ^ 53 := le_antisymm hm hlong
    have hcarry : (e + 1074).toNat * pow2 52 + 2 ^ 53 =
        (e + 1 + 1074).toNat * pow2 52 + 2 ^ 52 := by
      rw [pow2_eq_pow]
      omega
    rw [hcarry, value?_ofPattern negative (by norm_num) (by omega) (by omega) (.inl le_rfl)]
    have hraised := raised_mul_zpow (2 ^ 52) 1 (e + 1)
    rw [← hraised, Nat.cast_one, add_sub_cancel_right]
    rfl

end Grid

/-! ### The nearest real -/

/-- **A fraction rounded to a whole number of units.** The unit is the least one, or there are 53
bits of units; and half a unit below the greatest number of them is rounded up. -/
structure RoundsToUnits (q : ℚ) (e : ℤ) (m : ℕ) : Prop where
  /-- No unit is finer than the least one. -/
  least : -1074 ≤ e
  /-- The whole part has no more than 53 bits. -/
  short : q / 2 ^ e < 2 ^ 53
  /-- Where the unit could be finer, the whole part has that many. -/
  lead : 2 ^ 52 ≤ q / 2 ^ e ∨ e = -1074
  /-- The whole number is at most half a unit away. -/
  nearest : |(m : ℚ) - q / 2 ^ e| ≤ 1 / 2
  /-- A tie with the greatest whole part goes up. -/
  tie : 2 ^ 53 - 1 / 2 ≤ q / 2 ^ e → 2 ^ 53 ≤ m

namespace RoundsToUnits

variable {q : ℚ} {e : ℤ} {m : ℕ}

theorem le_whole (h : RoundsToUnits q e m) : m ≤ 2 ^ 53 := by
  have hnear := (abs_le.mp h.nearest).2
  have hlt : (m : ℚ) < (2 ^ 53 + 1 : ℕ) := by
    push_cast
    linarith [h.short]
  exact Nat.lt_succ_iff.mp (by exact_mod_cast hlt)

theorem lead_whole (h : RoundsToUnits q e m) : 2 ^ 52 ≤ m ∨ e = -1074 := by
  refine h.lead.imp_left fun hlead => ?_
  have hnear := (abs_le.mp h.nearest).1
  have hlt : ((2 ^ 52 : ℕ) : ℚ) < (m + 1 : ℕ) := by
    push_cast
    linarith
  exact Nat.lt_succ_iff.mp (by exact_mod_cast hlt)

/-- **The pattern overflows** from the middle between the greatest finite real and the next power of
two on. -/
theorem lt_infinitePattern_iff (h : RoundsToUnits q e m) :
    (e + 1074).toNat * pow2 52 + m < infinitePattern ↔ q < 2 ^ 1024 - 2 ^ 970 := by
  have hbound : infinitePattern = 2047 * 2 ^ 52 := rfl
  obtain ⟨t, ht, hpos⟩ : ∃ t : ℚ, (2 : ℚ) ^ 970 = t ∧ 0 < t := ⟨_, rfl, by positivity⟩
  have h1024 : (2 : ℚ) ^ 1024 = 2 ^ 54 * t := by rw [← ht, ← pow_add]
  have h970 : (2 : ℚ) ^ (970 : ℤ) = t := (zpow_ofNat 2 970).trans ht
  have h971 : (2 : ℚ) ^ (971 : ℤ) = 2 * t := by
    rw [← h970, ← zpow_one_add₀ two_ne_zero]
    congr 1
  have h972 : (2 : ℚ) ^ (972 : ℤ) = 4 * t := by
    have hfour : (4 : ℚ) * t = 2 * (2 * t) := by ring
    rw [hfour, ← h971, ← zpow_one_add₀ two_ne_zero]
    congr 1
  have hleast := h.least
  have hle := h.le_whole
  have hwhole := h.lead_whole
  rw [pow2_eq_pow, hbound, h1024, ht]
  rcases lt_trichotomy e 971 with hlow | rfl | hhigh
  · refine iff_of_true (by omega) ?_
    calc q < 2 ^ 53 * 2 ^ e := (div_lt_iff₀ (by positivity)).mp h.short
      _ ≤ 2 ^ 53 * 2 ^ (970 : ℤ) := by
          gcongr
          · norm_num
          · omega
      _ < 2 ^ 54 * t - t := by
          rw [h970]
          linarith only [hpos]
  · have hmiddle : q / 2 ^ (971 : ℤ) < 2 ^ 53 - 1 / 2 ↔ q < 2 ^ 54 * t - t := by
      rw [h971, div_lt_iff₀ (by positivity)]
      constructor <;> intro hlt <;> linarith
    rw [← hmiddle]
    constructor
    · intro hfinite
      exact not_le.mp fun htie => absurd (h.tie htie) (by omega)
    · intro hbelow
      have hnear := (abs_le.mp h.nearest).2
      have hlt : (m : ℚ) < (2 ^ 53 : ℕ) := by
        push_cast
        linarith
      have hlt' : m < 2 ^ 53 := by exact_mod_cast hlt
      omega
  · refine iff_of_false (by omega) (not_lt.mpr ?_)
    calc 2 ^ 54 * t - t ≤ 2 ^ 52 * 2 ^ (972 : ℤ) := by
          rw [h972]
          linarith only [hpos]
      _ ≤ 2 ^ 52 * 2 ^ e := by
          gcongr
          · norm_num
          · omega
      _ ≤ q := (le_div_iff₀ (by positivity)).mp (h.lead.resolve_right (by omega))

/-- **The pattern of the units is that of a nearest real**, or of an infinity. -/
theorem roundsTo (h : RoundsToUnits q e m) (hq : 0 < q) (negative : Bool) :
    RoundsTo (signed negative q)
      (if (e + 1074).toNat * pow2 52 + m < infinitePattern
        then ofPattern negative ((e + 1074).toNat * pow2 52 + m) else infinity negative) := by
  have habs : |signed negative q| = q := by rw [abs_signed, abs_of_pos hq]
  have hpos : (0 : ℚ) < 2 ^ e := by positivity
  constructor
  · intro hlt
    rw [habs, ← h.lt_infinitePattern_iff] at hlt
    rw [if_pos hlt]
    refine ⟨_, value?_ofUnits negative h.le_whole h.least h.lead_whole hlt, fun y w hy => ?_⟩
    have hunits : |(m : ℚ) - q / 2 ^ e| ≤ |signed negative w / 2 ^ e - q / 2 ^ e| := by
      refine abs_sub_le_of_units h.nearest ?_
      refine (exists_units_or_lt hy h.least negative).imp_right fun hoff => ⟨?_, hoff.2⟩
      exact h.lead.resolve_right hoff.1.ne'
    rw [abs_sub_signed, abs_sub_signed negative w, signed_signed, Bool.xor_self, signed_false]
    calc |(m : ℚ) * 2 ^ e - q| = |(m : ℚ) - q / 2 ^ e| * 2 ^ e := by
          rw [← abs_of_pos hpos, ← abs_mul, abs_of_pos hpos, sub_mul, div_mul_cancel₀ _ hpos.ne']
      _ ≤ |signed negative w / 2 ^ e - q / 2 ^ e| * 2 ^ e := by gcongr
      _ = |signed negative w - q| := by
          rw [← sub_div, abs_div, abs_of_pos hpos, div_mul_cancel₀ _ hpos.ne']
  · intro hge
    rw [habs] at hge
    rw [if_neg (mt h.lt_infinitePattern_iff.mp (not_lt.mpr hge)), decide_signed_lt_zero hq]

end RoundsToUnits

section Nearest

variable {num den : ℕ}

/-- A fraction is rounded in its unit. -/
theorem roundsToUnits (hnum : 0 < num) (hden : 0 < den) :
    RoundsToUnits (num / den) (exponentFor num den)
      (nearestEven (scaleDown num den (exponentFor num den)).1
        (scaleDown num den (exponentFor num den)).2) := by
  obtain ⟨hleast, hshort, hlead⟩ := exponentFor_spec hnum hden
  obtain ⟨hd, hscaled⟩ := scaleDown_spec num hden (exponentFor num den)
  have hd' : (0 : ℚ) < (scaleDown num den (exponentFor num den)).2 := by exact_mod_cast hd
  refine ⟨hleast, ?_, ?_, ?_, fun htie => ?_⟩
  · rw [div_lt_iff₀ (by positivity), two_pow_mul_zpow]
    exact hshort
  · rw [le_div_iff₀ (by positivity), two_pow_mul_zpow]
    exact hlead.symm
  · rw [← hscaled]
    exact abs_nearestEven_sub_le hd
  · refine le_nearestEven hd (by decide) ?_
    rw [← hscaled, le_div_iff₀ hd'] at htie
    have htie' : 2 * ((scaleDown num den (exponentFor num den)).2 : ℚ) * 2 ^ 53 ≤
        2 * (scaleDown num den (exponentFor num den)).1 +
          (scaleDown num den (exponentFor num den)).2 := by
      linarith
    exact_mod_cast htie'

/-- **The real nearest to a fraction** is found. -/
theorem roundsTo_ofRatio (negative : Bool) (num : ℕ) (hden : 0 < den) :
    RoundsTo (signed negative (num / den)) (ofRatio negative num den) := by
  rcases Nat.eq_zero_or_pos num with rfl | hnum
  · refine roundsTo_of_value ?_
    rw [ofRatio, if_pos rfl, value?_zero]
    cases negative <;> simp
  · rw [ofRatio, if_neg hnum.ne']
    exact (roundsToUnits hnum hden).roundsTo (by positivity) negative

end Nearest

/-- The sign of a nearest real is put on at the end. -/
theorem exists_pattern (num den : ℕ) :
    ∃ pattern < 2 ^ 63, ∀ negative, ofRatio negative num den = ofPattern negative pattern := by
  have hinfinite : infinitePattern < 2 ^ 63 := by decide
  by_cases hzero : num = 0
  · exact ⟨0, by norm_num, fun negative => if_pos hzero⟩
  · obtain ⟨pattern, hpattern⟩ : ∃ pattern, ∀ negative, ofRatio negative num den =
        if pattern < infinitePattern then ofPattern negative pattern else infinity negative :=
      ⟨_, fun _ => if_neg hzero⟩
    by_cases hfinite : pattern < infinitePattern
    · exact ⟨pattern, hfinite.trans hinfinite, fun s => (hpattern s).trans (if_pos hfinite)⟩
    · exact ⟨infinitePattern, hinfinite, fun s => (hpattern s).trans (if_neg hfinite)⟩

theorem ofPattern_bits_ofRatio (negative : Bool) (num den : ℕ) :
    ofPattern negative (ofRatio false num den).bits.toNat = ofRatio negative num den := by
  obtain ⟨pattern, hlt, hpattern⟩ := exists_pattern num den
  have hbits : (ofPattern false pattern).bits.toNat = pattern := by
    change (UInt64.ofNat pattern).toNat = pattern
    rw [UInt64.toNat_ofNat', Nat.mod_eq_of_lt (hlt.trans (by norm_num))]
  rw [hpattern, hpattern, hbits]

theorem negative_ofRatio (negative : Bool) (num den : ℕ) :
    (ofRatio negative num den).negative = negative := by
  obtain ⟨pattern, hlt, hpattern⟩ := exists_pattern num den
  rw [hpattern]
  exact (fields_ofPattern negative hlt).1

/-! ### Products and quotients -/

section Products

variable {x y : Binary64} {v w : ℚ}

/-- A scaled fraction short of the infinities is rounded to the real nearest to it. -/
theorem exists_ofScaled? (negative : Bool) (num : ℕ) {den : ℕ} (hden : 0 < den) {exponent : ℤ}
    (hlt : (num : ℚ) / den * 2 ^ exponent < 2 ^ 1024 - 2 ^ 970) :
    ∃ n d : ℕ, 0 < d ∧ (num : ℚ) / den * 2 ^ exponent = n / d ∧
      ofScaled? negative num den exponent = some (ofRatio negative n d) := by
  obtain ⟨hd, hscaled⟩ := scaleDown_spec num hden (-exponent)
  rw [zpow_neg, div_inv_eq_mul] at hscaled
  have hfinite : ofRatio negative (scaleDown num den (-exponent)).1
      (scaleDown num den (-exponent)).2 ≠ infinity negative := by
    intro hinfinite
    have hrounds := roundsTo_ofRatio negative (scaleDown num den (-exponent)).1 hd
    rw [hscaled, hinfinite] at hrounds
    obtain ⟨v, hv, -⟩ := hrounds.finite (by rwa [abs_signed, abs_of_nonneg (by positivity)])
    cases (value?_infinity negative).symm.trans hv
  exact ⟨_, _, hd, hscaled.symm, if_neg hfinite⟩

/-- **A product of reals** is rounded to the real nearest to it, if it is short of the
infinities. -/
theorem exists_times? (hx : x.value? = some v) (hy : y.value? = some w)
    (hlt : |v * w| < 2 ^ 1024 - 2 ^ 970) :
    ∃ n d : ℕ, 0 < d ∧ v * w = signed (x.negative ^^ y.negative) (n / d) ∧
      x.times? y = some (ofRatio (x.negative ^^ y.negative) n d) := by
  obtain ⟨s, m, e, hdx, rfl, -⟩ := exists_dyadic hx
  obtain ⟨t, n, f, hdy, rfl, -⟩ := exists_dyadic hy
  have hproduct : (m : ℚ) * 2 ^ e * (n * 2 ^ f) = (m * n : ℕ) / (1 : ℕ) * 2 ^ (e + f) := by
    rw [zpow_add₀ two_ne_zero]
    push_cast
    ring
  rw [signed_mul_signed, hproduct, abs_signed, abs_of_nonneg (by positivity)] at hlt
  obtain ⟨p, q, hq, hfraction, htimes⟩ := exists_ofScaled? (s ^^ t) (m * n) one_pos hlt
  rw [negative_of_finite hdx, negative_of_finite hdy, signed_mul_signed, hproduct, hfraction]
  refine ⟨p, q, hq, rfl, ?_⟩
  rw [times?, hdx, hdy]
  exact htimes

/-- **A quotient of reals** is rounded to the real nearest to it, if it is short of the
infinities. -/
theorem exists_over? (hx : x.value? = some v) (hy : y.value? = some w) (hw : w ≠ 0)
    (hlt : |v / w| < 2 ^ 1024 - 2 ^ 970) :
    ∃ n d : ℕ, 0 < d ∧ v / w = signed (x.negative ^^ y.negative) (n / d) ∧
      x.over? y = some (ofRatio (x.negative ^^ y.negative) n d) := by
  obtain ⟨s, m, e, hdx, rfl, -⟩ := exists_dyadic hx
  obtain ⟨t, n, f, hdy, rfl, -⟩ := exists_dyadic hy
  have hn : n ≠ 0 := by
    rintro rfl
    cases t <;> simp at hw
  have hquotient : signed s ((m : ℚ) * 2 ^ e) / signed t (n * 2 ^ f) =
      signed (s ^^ t) ((m : ℚ) / n * 2 ^ (e - f)) := by
    rw [div_eq_iff hw, signed_mul_signed, Bool.xor_assoc, Bool.xor_self, Bool.xor_false,
      zpow_sub₀ two_ne_zero]
    congr 1
    field_simp
  rw [hquotient, abs_signed, abs_of_nonneg (by positivity)] at hlt
  obtain ⟨p, q, hq, hfraction, hover⟩ := exists_ofScaled? (s ^^ t) m (Nat.pos_of_ne_zero hn) hlt
  rw [negative_of_finite hdx, negative_of_finite hdy, hquotient, hfraction]
  refine ⟨p, q, hq, rfl, ?_⟩
  rw [over?, hdx, hdy]
  exact (if_neg hn).trans hover

end Products

end Binary64

/-! ### Numerals -/

theorem pow10_eq_pow (k : ℕ) : pow10 k = 10 ^ k := rfl

namespace Decimal

open Binary64

/-- **The number that a numeral stands for.** -/
def value (d : Decimal) : ℚ := signed d.negative (d.digits * 10 ^ d.exponent)

/-- What is less than half of the least real is rounded to zero. -/
theorem roundsTo_zero (negative : Bool) {q : ℚ} (hpos : 0 < q) (hlt : q ≤ 2 ^ (-1075 : ℤ)) :
    RoundsTo (signed negative q) (ofPattern negative 0) := by
  have hhalf : q / 2 ^ (-1074 : ℤ) ≤ 1 / 2 := by
    rw [div_le_iff₀ (by positivity), one_div, ← zpow_neg_one, ← zpow_add₀ two_ne_zero]
    exact hlt
  have hunits : RoundsToUnits q (-1074) 0 := by
    have hnonneg : 0 ≤ q / 2 ^ (-1074 : ℤ) := by positivity
    refine ⟨le_rfl, by linarith, .inr rfl, ?_, fun htie => ?_⟩
    · rw [Nat.cast_zero, zero_sub, abs_neg, abs_of_nonneg hnonneg]
      exact hhalf
    · linarith
  exact hunits.roundsTo hpos negative

/-- Enough places below the digits make a numeral less than half of the least real. -/
theorem mul_zpow_le {digits places : ℕ} (h : digits.log2 + 1077 < 3 * places) :
    (digits : ℚ) * 10 ^ (-places : ℤ) ≤ 2 ^ (-1075 : ℤ) := by
  have hdigits : (digits : ℚ) ≤ 2 ^ ((digits.log2 : ℤ) + 1) := by
    exact_mod_cast Nat.lt_log2_self.le
  have hplaces : (10 : ℚ) ^ (-places : ℤ) ≤ 2 ^ (-(3 * places) : ℤ) := by
    have height : (2 : ℚ) ^ (3 * places : ℤ) = 8 ^ places := by
      rw [zpow_mul, zpow_natCast, zpow_ofNat]
      norm_num
    rw [zpow_neg, zpow_neg, zpow_natCast, height]
    exact inv_anti₀ (by positivity) (pow_le_pow_left₀ (by norm_num) (by norm_num) places)
  calc (digits : ℚ) * 10 ^ (-places : ℤ)
      ≤ 2 ^ ((digits.log2 : ℤ) + 1) * 2 ^ (-(3 * places) : ℤ) := by gcongr
    _ = 2 ^ ((digits.log2 : ℤ) + 1 + -(3 * places)) := (zpow_add₀ two_ne_zero _ _).symm
    _ ≤ 2 ^ (-1075 : ℤ) := zpow_le_zpow_right₀ one_le_two (by omega)

/-- **A numeral is read as the nearest real**, however large its exponent. -/
theorem roundsTo_toBinary64 (d : Decimal) : RoundsTo d.value d.toBinary64 := by
  simp only [value, toBinary64]
  split_ifs with hzero hlarge hwhole hsmall
  · have hround := roundsTo_ofRatio d.negative 0 one_pos
    rw [hzero]
    simpa using hround
  · have hone : (1 : ℚ) ≤ d.digits := by exact_mod_cast Nat.pos_of_ne_zero hzero
    have hpos : (0 : ℚ) < d.digits * 10 ^ d.exponent := by positivity
    have hpower : 2 ^ 1024 ≤ 10 ^ 310 := by decide +kernel
    have hlarge' : 2 ^ 1024 ≤ |signed d.negative (d.digits * 10 ^ d.exponent)| := by
      rw [abs_signed, abs_of_pos hpos]
      calc (2 : ℚ) ^ 1024 = (2 ^ 1024 : ℕ) := by rw [Nat.cast_pow, Nat.cast_ofNat]
        _ ≤ (10 ^ 310 : ℕ) := Nat.cast_le.mpr hpower
        _ = 10 ^ (310 : ℤ) := by rw [Nat.cast_pow, Nat.cast_ofNat, zpow_ofNat]
        _ ≤ 10 ^ d.exponent := zpow_le_zpow_right₀ (by norm_num) hlarge
        _ ≤ d.digits * 10 ^ d.exponent := le_mul_of_one_le_left (by positivity) hone
    have hround := roundsTo_infinity hlarge'
    rwa [decide_signed_lt_zero hpos] at hround
  · obtain ⟨k, hk⟩ := Int.eq_ofNat_of_zero_le hwhole
    have hround := roundsTo_ofRatio d.negative (d.digits * pow10 k) one_pos
    rw [hk, Int.toNat_natCast, zpow_natCast]
    simpa [pow10_eq_pow] using hround
  · obtain ⟨k, hk⟩ : ∃ k : ℕ, d.exponent = -k := ⟨(-d.exponent).toNat, by omega⟩
    rw [hk, neg_neg, Int.toNat_natCast] at hsmall
    have hpos : (0 : ℚ) < d.digits := by exact_mod_cast Nat.pos_of_ne_zero hzero
    rw [hk, ofRatio, if_pos rfl]
    exact roundsTo_zero d.negative (by positivity) (mul_zpow_le hsmall)
  · obtain ⟨k, hk⟩ : ∃ k : ℕ, d.exponent = -k := ⟨(-d.exponent).toNat, by omega⟩
    have hden : 0 < pow10 k := by
      rw [pow10_eq_pow]
      positivity
    have hround := roundsTo_ofRatio d.negative d.digits hden
    rw [hk, neg_neg, Int.toNat_natCast, zpow_neg, zpow_natCast, ← div_eq_mul_inv]
    simpa [pow10_eq_pow] using hround

end Decimal

end ScaledGauss
