import ScaledGauss.Json.Real
import ScaledGauss.Proofs.NearestReal

/-!
# Short numbers in texts

A number in a text is read as a real by two roundings (`ScaledGauss.Json.Numeral.real?`), and so
not always as the real nearest to it. Here it is shown that it is, if the number is **short**: if
its digits are below `2 ^ 53` and its power of ten is between `10 ^ (-22)` and `10 ^ 22`. Then two
things come together.

* **Nothing is left over.** The digits fit into 64 bits, so they are all taken, before the point
  and after it (`ScaledGauss.Json.Numeral.significand_eq`).
* **One rounding is none.** The digits and the power of ten are reals themselves, as `5 ^ 22` is
  below `2 ^ 53` too. What is left is one product or one quotient, which is rounded to the nearest.

Beyond these bounds a neighbour may be read.

## Main results

– `ScaledGauss.Json.timesPower_of_short`: short digits times a power of ten;
– `ScaledGauss.Json.Numeral.real?_of_short`: a short number is read as the nearest real.
-/

namespace ScaledGauss

namespace Json

open Binary64

/-! ### The digits -/

/-- Digits that fit are all taken. -/
theorem takeDigits_lowDigits {n : ℕ} (hn : n < pow2 64) (count : ℕ) :
    takeDigits (n / pow10 count) (lowDigits n count) = (n, 0) := by
  induction count with
  | zero => rw [lowDigits, takeDigits, pow10_eq_pow, pow_zero, Nat.div_one]
  | succ count ih =>
    have hnext : 10 * (n / pow10 (count + 1)) + n / pow10 count % 10 = n / pow10 count := by
      rw [pow10_eq_pow, pow10_eq_pow, pow_succ, ← Nat.div_div_eq_div_mul, Nat.div_add_mod]
    rw [lowDigits, takeDigits, hnext, if_pos ((Nat.div_le_self _ _).trans_lt hn), ih]

/-- **The significand is all of the digits**, if they fit. -/
theorem Numeral.significand_eq (x : Numeral) (h : x.digits < pow2 64) :
    x.significand = (x.digits, x.exponent) := by
  have hwhole : x.digits / pow10 x.places < pow2 64 := (Nat.div_le_self _ _).trans_lt h
  have hlength : x.digits / pow10 x.places <
      pow10 (Nat.toDigits 10 (x.digits / pow10 x.places)).length :=
    (Nat.length_toDigits_le_iff (by decide) Nat.length_toDigits_pos).mp le_rfl
  have htake := takeDigits_lowDigits hwhole (Nat.toDigits 10 (x.digits / pow10 x.places)).length
  rw [Nat.div_eq_of_lt hlength] at htake
  simp [significand, htake, takeDigits_lowDigits h]

/-! ### The power of ten -/

/-- A whole number with 53 bits before some zeros is a real. -/
theorem value?_ofRatio_of_short {significand places : ℕ} (hs : significand < 2 ^ 53)
    (hplaces : places ≤ 22) :
    (ofRatio false (significand * 2 ^ places) 1).value? =
      some ((significand : ℚ) * 2 ^ places) := by
  have hlt : (significand : ℚ) * 2 ^ (places : ℤ) < 2 ^ 1024 := by
    have hs' : (significand : ℚ) < 2 ^ 53 := by exact_mod_cast hs
    calc (significand : ℚ) * 2 ^ (places : ℤ) < 2 ^ 53 * 2 ^ (places : ℤ) := by gcongr
      _ = 2 ^ (53 + places) := by rw [zpow_natCast, pow_add]
      _ ≤ 2 ^ 1024 := pow_le_pow_right₀ one_le_two (by omega)
  obtain ⟨x, hx⟩ := exists_value false hs (by omega) hlt
  have hround := roundsTo_ofRatio false (significand * 2 ^ places) one_pos
  have hnumber : signed false ((significand * 2 ^ places : ℕ) / (1 : ℕ)) =
      signed false (significand * 2 ^ (places : ℤ)) := by
    rw [zpow_natCast]
    push_cast
    rw [div_one]
  rw [hnumber] at hround
  simpa using hround.value?_eq hx

/-- A power of ten is a real, up to `10 ^ 22`. -/
theorem value?_powerOfTen {k : ℕ} (hk : k ≤ 22) : (powerOfTen k).value? = some ((10 : ℚ) ^ k) := by
  have hfive : 5 ^ k < 2 ^ 53 := (Nat.pow_le_pow_right (by decide) hk).trans_lt (by decide)
  have hten : 10 ^ k = 5 ^ k * 2 ^ k := by rw [← Nat.mul_pow]
  have hpower := value?_ofRatio_of_short hfive hk
  rw [← hten] at hpower
  have hcast : ((5 ^ k : ℕ) : ℚ) * 2 ^ k = 10 ^ k := by exact_mod_cast hten.symm
  rw [powerOfTen, pow10_eq_pow, hpower, hcast]

/-- A power of ten that is finite multiplies once. -/
theorem timesPower_natCast (x : Binary64) {k : ℕ} (hk : k ≤ greatestPower) :
    timesPower x k = x.times? (powerOfTen k) := by
  rw [timesPower, if_pos (Int.natCast_nonneg k), if_pos (Int.ofNat_le.mpr hk), Int.toNat_natCast]

/-- And it divides once. -/
theorem timesPower_neg_succ (x : Binary64) {k : ℕ} (hk : k < greatestPower) :
    timesPower x (-(k + 1 : ℕ)) = x.over? (powerOfTen (k + 1)) := by
  have hplaces : (- -((k + 1 : ℕ) : ℤ)).toNat - 1 = k := by omega
  rw [timesPower, if_neg (by omega)]
  dsimp only
  rw [hplaces, Nat.mod_eq_of_lt hk, Nat.div_eq_of_lt hk, divideByPower]

/-- Numbers below `2 ^ 128` are far from the infinities. -/
theorem lt_middle {q : ℚ} (h : q < 2 ^ 128) : q < 2 ^ 1024 - 2 ^ 970 := by
  have hle : (2 : ℚ) ^ 128 ≤ 2 ^ 970 := pow_le_pow_right₀ one_le_two (by decide)
  have htop : (2 : ℚ) ^ 1024 = 2 ^ 54 * 2 ^ 970 := by rw [← pow_add]
  have hpos : (0 : ℚ) < 2 ^ 970 := by positivity
  rw [htop]
  generalize (2 : ℚ) ^ 970 = t at hle hpos
  linarith

/-- **A short number is multiplied or divided once**, and the result is the real nearest to it. -/
theorem timesPower_of_short {digits : ℕ} {exponent : ℤ} (hd : digits < 2 ^ 53)
    (he : |exponent| ≤ 22) :
    ∃ n d : ℕ, 0 < d ∧ (digits : ℚ) * 10 ^ exponent = n / d ∧
      timesPower (ofRatio false digits 1) exponent = some (ofRatio false n d) := by
  have hdigits : (ofRatio false digits 1).value? = some (digits : ℚ) := by
    simpa using value?_ofRatio_of_short hd (Nat.zero_le 22)
  have hd' : (digits : ℚ) < 2 ^ 53 := by exact_mod_cast hd
  rcases le_or_gt 0 exponent with hsign | hsign
  · obtain ⟨k, rfl⟩ := Int.eq_ofNat_of_zero_le hsign
    have hk : k ≤ 22 := by
      rw [abs_of_nonneg hsign] at he
      omega
    have hpower := value?_powerOfTen hk
    have hlt : |(digits : ℚ) * 10 ^ k| < 2 ^ 1024 - 2 ^ 970 := by
      refine lt_middle ?_
      calc |(digits : ℚ) * 10 ^ k| = digits * 10 ^ k := abs_of_nonneg (by positivity)
        _ ≤ 2 ^ 53 * 10 ^ 22 := by
            gcongr
            norm_num
        _ < 2 ^ 128 := by norm_num
    obtain ⟨n, d, hpos, hproduct, htimes⟩ := exists_times? hdigits hpower hlt
    rw [negative_ofRatio, powerOfTen, negative_ofRatio] at hproduct htimes
    exact ⟨n, d, hpos, hproduct, (timesPower_natCast _ (hk.trans (by decide))).trans htimes⟩
  · obtain ⟨k, rfl⟩ : ∃ k : ℕ, exponent = -(k + 1 : ℕ) := ⟨(-exponent - 1).toNat, by omega⟩
    have hk : k + 1 ≤ 22 := by
      rw [abs_of_neg hsign] at he
      omega
    have hpower := value?_powerOfTen hk
    have hlt : |(digits : ℚ) / 10 ^ (k + 1)| < 2 ^ 1024 - 2 ^ 970 := by
      refine lt_middle ?_
      calc |(digits : ℚ) / 10 ^ (k + 1)| = digits / 10 ^ (k + 1) := abs_of_nonneg (by positivity)
        _ ≤ digits := div_le_self (by positivity) (one_le_pow₀ (by norm_num))
        _ < 2 ^ 128 := hd'.trans (by norm_num)
    obtain ⟨n, d, hpos, hquotient, hover⟩ := exists_over? hdigits hpower (by positivity) hlt
    rw [negative_ofRatio, powerOfTen, negative_ofRatio] at hquotient hover
    refine ⟨n, d, hpos, ?_, (timesPower_neg_succ _ (hk.trans (by decide))).trans hover⟩
    rw [zpow_neg, zpow_natCast, ← div_eq_mul_inv]
    exact hquotient

/-! ### Short numbers -/

/-- **A short number is read as the real nearest to it.** -/
theorem Numeral.real?_of_short (x : Numeral) (hdigits : x.digits < 2 ^ 53)
    (hexponent : |x.exponent| ≤ 22) :
    ∃ r, x.real? = some r ∧ RoundsTo (signed x.negative (x.digits * 10 ^ x.exponent)) r := by
  obtain ⟨n, d, hd, hnumber, htimes⟩ := timesPower_of_short hdigits hexponent
  have hsignificand : x.significand = (x.digits, x.exponent) :=
    x.significand_eq (hdigits.trans (by decide))
  refine ⟨ofRatio x.negative n d, ?_, hnumber ▸ roundsTo_ofRatio x.negative n hd⟩
  simp only [real?, hsignificand, htimes, Option.map_some, ofPattern_bits_ofRatio]

/-- Just above `2 ^ 53` the real before the nearest one may be read. -/
example :
    let x : Numeral := { digits := 9009552001953125, places := 17, plain := false }
    x.real?.map (·.bits.toNat + 1) =
      some (Decimal.mk x.negative x.digits x.exponent).toBinary64.bits.toNat := by
  decide +kernel

end Json

end ScaledGauss
