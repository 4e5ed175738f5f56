import Mathlib.Data.Int.ModEq
import Mathlib.Data.Rat.Floor
import ScaledGauss.Proofs.Guarded.Elimination

/-!
# The operations are correctly rounded

An operation of a format is computed in 64-bit words, by shifts, sign branches and a test of
the remainder. What it should be is said here without any of them: take the result as a
rational number, round it to an integer, and let the overflow policy make a raw value of the
integer. Each of the three is a relation that does not compute.

* **Rounding to nearest** (`ScaledGauss.NearestAway`) says that no integer is nearer, and that
  of two that are equally near the one further from zero is taken. Exactly one integer is so
  (`ScaledGauss.NearestAway.unique`).
* **The rounded result** (`ScaledGauss.Format.Rounds`) is the rational number of an operation
  under the rounding of its format; products and quotients are cut differently.
* **The overflow policy** (`ScaledGauss.Overflow.Makes`) names what becomes of an integer:
  the raw value congruent to it, the nearest raw value, or the integer itself or a refusal.

The integer formulas of `ScaledGauss.Format.exact` are then the only rounded results
(`ScaledGauss.Format.rounds_iff`), and the operations, computed in guarded words, have exactly
the outcomes that the relations allow (`ScaledGauss.Guarded.apply_correctly_rounded`). A word
that was too narrow would show as a fault, and no policy makes one.
-/

namespace ScaledGauss

/-! ### To the nearest integer -/

/-- **The nearest integer, a tie going away from zero**: no integer is nearer to `q`, and none
that is as near has a larger magnitude. -/
structure NearestAway (q : ℚ) (z : ℤ) : Prop where
  /-- No integer is nearer. -/
  nearest : ∀ w : ℤ, |(z : ℚ) - q| ≤ |(w : ℚ) - q|
  /-- An integer that is as near is not further from zero. -/
  away : ∀ w : ℤ, |(w : ℚ) - q| = |(z : ℚ) - q| → |w| ≤ |z|

namespace NearestAway

variable {q : ℚ} {z w : ℤ}

/-- **There is at most one.** Two of them would be opposite integers at the same distance from
`q`, which puts `q` at zero, where zero is nearer. -/
theorem unique (hz : NearestAway q z) (hw : NearestAway q w) : z = w := by
  have hdist : |(z : ℚ) - q| = |(w : ℚ) - q| := le_antisymm (hz.nearest w) (hw.nearest z)
  have habs : |z| = |w| := le_antisymm (hw.away z hdist) (hz.away w hdist.symm)
  rcases abs_eq_abs.mp habs with h | rfl
  · exact h
  · rcases abs_eq_abs.mp hdist with h | h
    · have hw0 : (w : ℚ) = 0 := by
        push_cast at h
        linarith
      have : w = 0 := by exact_mod_cast hw0
      rw [this, neg_zero]
    · have hq : q = 0 := by
        push_cast at h
        linarith
      have hle := hw.nearest 0
      rw [hq, sub_zero, Int.cast_zero, sub_zero, abs_zero] at hle
      have hw0 : (w : ℚ) = 0 := abs_nonpos_iff.mp hle
      have : w = 0 := by exact_mod_cast hw0
      rw [this, neg_zero]

/-- Rounding to nearest does not prefer a sign. -/
theorem neg (h : NearestAway q z) : NearestAway (-q) (-z) := by
  have hdist : ∀ v : ℤ, |(v : ℚ) - -q| = |((-v : ℤ) : ℚ) - q| := by
    intro v
    rw [← abs_neg]
    push_cast
    congr 1
    ring
  constructor
  · intro v
    rw [hdist, hdist, neg_neg]
    exact h.nearest (-v)
  · intro v hv
    rw [hdist, hdist, neg_neg] at hv
    rw [abs_neg, ← abs_neg v]
    exact h.away (-v) hv

/-- The sign of an integer may be put to both. -/
theorem sign_mul (h : NearestAway q z) (p : ℤ) : NearestAway (p.sign * q) (p.sign * z) := by
  rcases lt_trichotomy p 0 with hp | rfl | hp
  · rw [Int.sign_eq_neg_one_of_neg hp]
    push_cast
    rw [neg_one_mul, neg_one_mul]
    exact h.neg
  · rw [Int.sign_zero, zero_mul, Int.cast_zero, zero_mul]
    constructor
    · intro v
      rw [Int.cast_zero, sub_zero, abs_zero]
      exact abs_nonneg _
    · intro v hv
      rw [Int.cast_zero, sub_zero, sub_zero, abs_zero, abs_eq_zero] at hv
      have : v = 0 := by exact_mod_cast hv
      rw [this]
  · rw [Int.sign_eq_one_of_pos hp, Int.cast_one, one_mul, one_mul]
    exact h

end NearestAway

/-- Half a unit up and then down is the nearest integer to a number that is not negative. -/
theorem nearestAway_floor {q : ℚ} (hq : 0 ≤ q) : NearestAway q ⌊q + 1 / 2⌋ := by
  have hlow := Int.floor_le (q + 1 / 2)
  have hhigh := Int.lt_floor_add_one (q + 1 / 2)
  have hnonneg : 0 ≤ ⌊q + 1 / 2⌋ := Int.floor_nonneg.mpr (by linarith)
  generalize ⌊q + 1 / 2⌋ = z at hlow hhigh hnonneg
  have hdist : |(z : ℚ) - q| ≤ 1 / 2 := abs_le.mpr ⟨by linarith, by linarith⟩
  -- any other integer is at least half a unit away, and strictly more if it is larger
  have hbelow : ∀ w : ℤ, w < z → 1 / 2 ≤ |(w : ℚ) - q| := by
    intro w hw
    have hw' : (w : ℚ) + 1 ≤ z := by exact_mod_cast hw
    exact le_abs.mpr (.inr (by linarith))
  have habove : ∀ w : ℤ, z < w → 1 / 2 < |(w : ℚ) - q| := by
    intro w hw
    have hw' : (z : ℚ) + 1 ≤ w := by exact_mod_cast hw
    exact lt_abs.mpr (.inl (by linarith))
  constructor
  · intro w
    rcases lt_trichotomy w z with hw | rfl | hw
    · exact hdist.trans (hbelow w hw)
    · exact le_rfl
    · exact hdist.trans (habove w hw).le
  · intro w hw
    rcases lt_trichotomy w z with hlt | rfl | hgt
    · -- a tie: the other integer is the next one down
      have htie : |(w : ℚ) - q| = 1 / 2 := le_antisymm (hw.trans_le hdist) (hbelow w hlt)
      have hw' : (w : ℚ) + 1 ≤ z := by exact_mod_cast hlt
      have hge : q - 1 / 2 ≤ w := by
        have := (abs_le.mp htie.le).1
        linarith
      have hw0 : (-1 : ℚ) < w := by linarith
      have hw0' : (-1 : ℤ) < w := by exact_mod_cast hw0
      rw [abs_of_nonneg hnonneg, abs_of_nonneg (by omega)]
      exact hlt.le
    · exact le_rfl
    · exact absurd (hw.trans_le hdist) (not_le.mpr (habove w hgt))

/-- The nearest whole number to a fraction is the nearest integer to it. -/
theorem nearestAway_nearestUp {den : ℕ} (hd : 0 < den) (num : ℕ) :
    NearestAway ((num : ℚ) / den) (nearestUp num den) := by
  have hd' : (den : ℚ) ≠ 0 := by exact_mod_cast hd.ne'
  have hfloor : ⌊(num : ℚ) / den + 1 / 2⌋ = (nearestUp num den : ℤ) := by
    have hsum : (num : ℚ) / den + 1 / 2 = ((2 * num + den : ℕ) : ℚ) / ((2 * den : ℕ) : ℚ) := by
      push_cast
      field_simp
    rw [hsum, Rat.floor_natCast_div_natCast]
    rfl
  rw [← hfloor]
  exact nearestAway_floor (by positivity)

/-! ### The rounded result of an operation -/

/-- **Toward zero**: down from above zero, up from below. -/
def towardZero (q : ℚ) : ℤ := if 0 ≤ q then ⌊q⌋ else ⌈q⌉

theorem towardZero_neg (q : ℚ) : towardZero (-q) = -towardZero q := by
  unfold towardZero
  rcases lt_trichotomy q 0 with hq | rfl | hq
  · rw [if_pos (by linarith), if_neg (by linarith), Int.floor_neg]
  · simp
  · rw [if_neg (by linarith), if_pos hq.le, Int.ceil_neg]

/-- The quotient of two integers toward zero. -/
theorem towardZero_div (p q : ℤ) : towardZero ((p : ℚ) / q) = p.tdiv q := by
  have hnat : ∀ m d : ℕ, towardZero ((m : ℚ) / d) = (m : ℤ).tdiv d := by
    intro m d
    rw [towardZero, if_pos (by positivity), Rat.floor_natCast_div_natCast,
      Int.tdiv_eq_ediv_of_nonneg (Int.natCast_nonneg m)]
  obtain ⟨m, rfl | rfl⟩ := p.eq_nat_or_neg <;> obtain ⟨d, rfl | rfl⟩ := q.eq_nat_or_neg <;>
    simp [neg_div, div_neg, towardZero_neg, hnat]

/-- **A product rounded**: down, or to the nearest integer. -/
def Rounding.OfProduct : Rounding → ℚ → ℤ → Prop
  | .truncate, q, z => z = ⌊q⌋
  | .nearest, q, z => NearestAway q z

/-- **A quotient rounded**: toward zero, or to the nearest integer. -/
def Rounding.OfQuotient : Rounding → ℚ → ℤ → Prop
  | .truncate, q, z => z = towardZero q
  | .nearest, q, z => NearestAway q z

/-- **The rounded result of an operation** in raw units: that of the product over the scale,
of the dividend raised by the scale over the divisor, or the sum or difference as it is. -/
def Format.Rounds (f : Format) : Op → Scaled → Scaled → ℤ → Prop
  | .multiply, a, b, z => f.rounding.OfProduct ((a.val : ℚ) * b.val / 2 ^ f.fracBits) z
  | .divide, a, b, z => f.rounding.OfQuotient ((a.val : ℚ) * 2 ^ f.fracBits / b.val) z
  | .add, a, b, z => z = a.val + b.val
  | .subtract, a, b, z => z = a.val - b.val

theorem pow2_eq_pow (k : ℕ) : pow2 k = 2 ^ k := rfl

/-- An integer is its magnitude with its sign put to it, as a rational number too. -/
theorem cast_sign_mul_natAbs (p : ℤ) : (p.sign : ℚ) * p.natAbs = p := by
  simpa only [Int.cast_mul, Int.cast_natCast] using
    congrArg (Int.cast : ℤ → ℚ) (Int.sign_mul_natAbs p)

theorem Rounding.ofProduct_iff (r : Rounding) {scale : ℕ} (hs : 0 < scale) (p z : ℤ) :
    r.OfProduct ((p : ℚ) / scale) z ↔ z = r.product scale p := by
  cases r with
  | truncate =>
    change z = ⌊(p : ℚ) / scale⌋ ↔ z = p / scale
    rw [Rat.floor_intCast_div_natCast]
  | nearest =>
    have hsign : (p : ℚ) / scale = p.sign * ((p.natAbs : ℚ) / scale) := by
      rw [← mul_div_assoc, cast_sign_mul_natAbs]
    have hrounded : NearestAway ((p : ℚ) / scale) (Rounding.nearest.product scale p) := by
      rw [hsign]
      exact (nearestAway_nearestUp hs p.natAbs).sign_mul p
    exact ⟨fun h => h.unique hrounded, fun h => h ▸ hrounded⟩

theorem Rounding.ofQuotient_iff (r : Rounding) {q : ℤ} (hq : q ≠ 0) (p z : ℤ) :
    r.OfQuotient ((p : ℚ) / q) z ↔ z = r.quotient p q := by
  cases r with
  | truncate =>
    change z = towardZero ((p : ℚ) / q) ↔ z = p.tdiv q
    rw [towardZero_div]
  | nearest =>
    have hq0 : (q : ℚ) ≠ 0 := by exact_mod_cast hq
    have habs : (q.natAbs : ℚ) ≠ 0 := by exact_mod_cast (Int.natAbs_pos.mpr hq).ne'
    have hqs : (q.sign : ℚ) * q = q.natAbs := by
      simpa only [Int.cast_mul, Int.cast_natCast] using
        congrArg (Int.cast : ℤ → ℚ) (Int.sign_mul_self q)
    have hsign : (p : ℚ) / q = p.sign * (q.sign * ((p.natAbs : ℚ) / q.natAbs)) := by
      rw [div_eq_iff hq0]
      calc (p : ℚ) = p.sign * p.natAbs * (q.natAbs / q.natAbs) := by
            rw [div_self habs, cast_sign_mul_natAbs, mul_one]
        _ = p.sign * p.natAbs * (q.sign * q / q.natAbs) := by rw [hqs]
        _ = p.sign * (q.sign * ((p.natAbs : ℚ) / q.natAbs)) * q := by ring
    have hrounded : NearestAway ((p : ℚ) / q) (Rounding.nearest.quotient p q) := by
      rw [hsign, Rounding.quotient, mul_assoc]
      exact ((nearestAway_nearestUp (Int.natAbs_pos.mpr hq) p.natAbs).sign_mul q).sign_mul p
    exact ⟨fun h => h.unique hrounded, fun h => h ▸ hrounded⟩

/-- **The integer formulas are the rounded results**, and nothing else is. -/
theorem Format.rounds_iff (f : Format) {op : Op} {a b : Scaled} (h : ¬(op = .divide ∧ b.val = 0))
    (z : ℤ) : f.Rounds op a b z ↔ z = f.exact op a b := by
  cases op with
  | multiply =>
    have hscale := f.rounding.ofProduct_iff (pow2_pos f.fracBits) (a.val * b.val) z
    rw [pow2_eq_pow] at hscale
    push_cast at hscale
    exact hscale
  | divide =>
    have hb : b.val ≠ 0 := fun hb => h ⟨rfl, hb⟩
    have hscale := f.rounding.ofQuotient_iff hb (a.val * pow2 f.fracBits) z
    rw [pow2_eq_pow] at hscale
    push_cast at hscale
    exact hscale
  | add => exact Iff.rfl
  | subtract => exact Iff.rfl

/-! ### The overflow policy -/

/-- **What an overflow policy makes of an integer**, as the result of a named operation. -/
inductive Overflow.Makes (operation : String) (z : ℤ) : Overflow → Except Error Scaled → Prop
  /-- Wrapping around, the raw value that is congruent to it modulo `2 ^ 32`. -/
  | wrapped {r : Scaled} : r.val ≡ z [ZMOD 2 ^ 32] → Makes operation z .wrapping (.ok r)
  /-- Clamping, the integer cut to the range. -/
  | clamped {r : Scaled} : r.val = max (-2 ^ 31) (min z (2 ^ 31 - 1)) →
      Makes operation z .saturating (.ok r)
  /-- Checking, the integer itself. -/
  | kept {r : Scaled} : r.val = z → Makes operation z .checked (.ok r)
  /-- Checking, a refusal that names the operation if the integer is out of range. -/
  | refused : z < -2 ^ 31 ∨ 2 ^ 31 - 1 < z →
      Makes operation z .checked (.error (.overflow operation))

/-- **The policy of a format** makes what it should, and nothing else. -/
theorem Format.makes_iff (f : Format) (operation : String) (z : ℤ)
    (outcome : Except Error Scaled) :
    f.overflow.Makes operation z outcome ↔ f.narrow operation z = outcome := by
  unfold narrow
  cases f.overflow with
  | wrapping =>
    have hwrap : ∀ r : Scaled, r.val ≡ z [ZMOD 2 ^ 32] ↔ Scaled.wrap z = r := by
      intro r
      have hr := r.inRange_val
      rw [Scaled.ext_val_iff, Scaled.val_wrap, Int.bmod_eq_iff (by decide), Int.modEq_comm,
        Int.modEq_iff_dvd]
      exact ⟨fun h => ⟨hr.1, hr.2, h⟩, fun h => h.2.2⟩
    constructor
    · rintro ⟨h⟩
      exact congrArg Except.ok ((hwrap _).mp h)
    · rintro rfl
      exact .wrapped ((hwrap _).mpr rfl)
  | saturating =>
    have hclamp : (Scaled.clamp z).val = max (-2 ^ 31) (min z (2 ^ 31 - 1)) := by
      rw [Scaled.val_clamp]
      split_ifs <;> omega
    constructor
    · rintro (_ | h)
      exact congrArg Except.ok (Scaled.ext_val (hclamp.trans h.symm))
    · rintro rfl
      exact .clamped hclamp
  | checked =>
    by_cases hz : Scaled.InRange z
    · have hval := Scaled.val_wrap_of_inRange hz
      simp only [Scaled.ofInt?, if_pos hz]
      constructor
      · rintro (_ | _ | h | h)
        · exact congrArg Except.ok (Scaled.ext_val (hval.trans h.symm))
        · obtain ⟨hlow, hhigh⟩ := hz
          omega
      · rintro rfl
        exact .kept hval
    · simp only [Scaled.ofInt?, if_neg hz]
      constructor
      · rintro (_ | _ | h | h)
        · exact absurd (h ▸ Scaled.inRange_val _) hz
        · rfl
      · rintro rfl
        refine .refused ?_
        by_contra h
        exact hz ⟨by omega, by omega⟩

/-- No policy makes a fault. -/
theorem Overflow.Makes.ne_fault {operation : String} {z : ℤ} {o : Overflow}
    {outcome : Except Error Scaled} (h : o.Makes operation z outcome) (fault : Fault) :
    outcome ≠ .error (.fault fault) := by
  cases h <;> exact nofun

/-! ### The operations -/

/-- **The four operations are correctly rounded**, division by zero apart: computed in guarded
words, an operation has exactly the outcome that the policy makes of its rounded result. -/
theorem Guarded.apply_eq_iff (f : Format) {op : Op} {a b : Scaled}
    (h : ¬(op = .divide ∧ b.val = 0)) (outcome : Except Error Scaled) :
    apply f op a b = outcome ↔
      ∃ z, f.Rounds op a b z ∧ f.overflow.Makes op.name z outcome := by
  simp only [f.rounds_iff h, f.makes_iff, exists_eq_left]
  rw [apply_eq, Format.apply_eq_narrow, if_neg h]

/-- An integer is brought to the scale in one shift, which stays in its word. -/
theorem Format.ofInteger_eq (f : Format) (k : Int32) :
    f.ofInteger k = f.narrow conversion (k.toInt * 2 ^ f.fracBits) := by
  have hk : f.fracBits ≤ 30 := f.fracBits_le
  have hsize := f.natAbs_val_mul_pow2_le ⟨k⟩
  have hfits : Word.Fits 64 (k.toInt * pow2 f.fracBits) :=
    Word.fits_of_natAbs_lt (lt_of_le_of_lt hsize (by decide))
  rw [ofInteger, Word.shiftLeft, if_pos (by omega), Word.fit_eq_ok hfits, ok_bind, pow2_eq_pow]
  push_cast
  rfl

/-- **The operations of a format are correctly rounded.** Each is the result as a rational
number, rounded once to an integer and made a raw value by the overflow policy; integers are
converted without any rounding; and a quotient by zero is refused, or is an end of the range or
zero by the sign of the dividend if the policy clamps. The operations are computed here with
every word guarded, and no guard fails: no shift is too wide, no division by zero happens, and
every intermediate result fits 64 bits. They are the operations of the arithmetic of the
format. -/
theorem Guarded.apply_correctly_rounded (f : Format) (a b : Scaled) (k : Int32) :
    (∀ op outcome, ¬(op = .divide ∧ b.val = 0) →
      (apply f op a b = outcome ↔
        ∃ z, f.Rounds op a b z ∧ f.overflow.Makes op.name z outcome)) ∧
    (∀ outcome, f.ofInteger k = outcome ↔
      f.overflow.Makes "conversion" (k.toInt * 2 ^ f.fracBits) outcome) ∧
    (b.val = 0 → apply f .divide a b =
      if f.overflow = .saturating then
        .ok (if 0 < a.val then .greatest else if a.val < 0 then .least else .zero)
      else .error .divisionByZero) ∧
    (∀ fault, (∀ op, apply f op a b ≠ .error (.fault fault)) ∧
      f.ofInteger k ≠ .error (.fault fault)) ∧
    f.arithmetic.apply = apply f := by
  have hinteger : ∀ outcome, f.ofInteger k = outcome ↔
      f.overflow.Makes "conversion" (k.toInt * 2 ^ f.fracBits) outcome := by
    intro outcome
    rw [f.makes_iff, f.ofInteger_eq]
    exact Iff.rfl
  have hzero : b.val = 0 → apply f .divide a b =
      if f.overflow = .saturating then
        .ok (if 0 < a.val then .greatest else if a.val < 0 then .least else .zero)
      else .error .divisionByZero := by
    intro hb
    rw [apply_eq, Format.apply_eq_narrow, if_pos ⟨rfl, hb⟩, Format.divideByZero]
    cases f.overflow <;> rfl
  refine ⟨fun op outcome h => apply_eq_iff f h outcome, hinteger, hzero, fun fault => ⟨?_, ?_⟩,
    (apply_eq f).symm⟩
  · intro op
    by_cases h : op = .divide ∧ b.val = 0
    · obtain ⟨rfl, hb⟩ := h
      rw [hzero hb]
      split <;> rintro ⟨⟩
    · obtain ⟨z, -, hz⟩ := (apply_eq_iff f h _).mp rfl
      exact hz.ne_fault fault
  · exact ((hinteger _).mp rfl).ne_fault fault

/-- The finest scale, to nearest, checked. -/
def finestFormat : Format where
  fracBits := 30
  rounding := .nearest
  overflow := .checked

/-- A product halfway between two integers, below zero; the largest quotient there is, which is
out of range; a quotient by zero; and the least integer, which cannot be converted. -/
theorem Guarded.apply_correctly_rounded_extremes :
    (finestFormat.Rounds .multiply ⟨-3⟩ ⟨536870912⟩ (-2) ∧
      apply finestFormat .multiply ⟨-3⟩ ⟨536870912⟩ = .ok ⟨-2⟩) ∧
    (finestFormat.Rounds .divide .least ⟨-1⟩ (2 ^ 61) ∧
      apply finestFormat .divide .least ⟨-1⟩ = .error (.overflow "divide")) ∧
    (Scaled.zero.val = 0 ∧ apply finestFormat .divide .least .zero = .error .divisionByZero) ∧
    finestFormat.ofInteger (-2147483648) = .error (.overflow "conversion") := by
  have hproduct : finestFormat.Rounds .multiply ⟨-3⟩ ⟨536870912⟩ (-2) :=
    (Format.rounds_iff _ (by decide) _).mpr (by decide)
  have hquotient : finestFormat.Rounds .divide .least ⟨-1⟩ (2 ^ 61) :=
    (Format.rounds_iff _ (by decide) _).mpr (by decide)
  obtain ⟨hmul, -⟩ := apply_correctly_rounded finestFormat ⟨-3⟩ ⟨536870912⟩ 0
  obtain ⟨hdiv, hconv, -⟩ := apply_correctly_rounded finestFormat .least ⟨-1⟩ (-2147483648)
  obtain ⟨-, -, hzero, -⟩ := apply_correctly_rounded finestFormat .least .zero 0
  refine ⟨⟨hproduct, ?_⟩, ⟨hquotient, ?_⟩, ⟨rfl, hzero rfl⟩, ?_⟩
  · exact (hmul .multiply _ (by decide)).mpr ⟨-2, hproduct, .kept rfl⟩
  · exact (hdiv .divide _ (by decide)).mpr ⟨2 ^ 61, hquotient, .refused (.inr (by decide))⟩
  · exact (hconv _).mpr (.refused (.inl (by decide)))

end ScaledGauss
