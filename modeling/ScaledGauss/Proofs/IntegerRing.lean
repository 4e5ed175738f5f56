import Mathlib.Data.Int.ModEq
import ScaledGauss.Proofs.CorrectRounding

/-!
# The integers in a wrapping format

An integer in a format is that integer times the scale. Under the wrapping policy it is so
modulo `2 ^ 32` only, and the high bits that do not fit are lost. This file shows that they
are never missed: sums, differences and products of converted integers are the converted sums,
differences and products, these being 32-bit words that wrap around too.

* For **sums and differences** it is enough to compute modulo `2 ^ 32`
  (`ScaledGauss.Scaled.wrap_eq_wrap_iff`).
* A **product** is divided by the scale before it is wrapped, and a division does not respect
  congruences. But the scale divides `2 ^ 32`, so what is left of a converted integer is still
  a multiple of the scale (`ScaledGauss.Format.exists_val_integer`): the division is exact,
  there is nothing to round, and the factor that remains is known modulo `2 ^ 32` over the
  scale, which is as much as the other factor, a multiple of the scale, asks for.
-/

namespace ScaledGauss

/-! ### Raw values modulo `2 ^ 32` -/

namespace Scaled

theorem val_wrap_modEq (z : ℤ) : (wrap z).val ≡ z [ZMOD 0x100000000] := by
  rw [val_wrap]
  exact Int.bmod_emod

/-- **Integers are wrapped alike** if they are congruent modulo `2 ^ 32`. -/
theorem wrap_eq_wrap_iff {z w : ℤ} : wrap z = wrap w ↔ z ≡ w [ZMOD 0x100000000] := by
  constructor
  · intro h
    have hz := val_wrap_modEq z
    rw [h] at hz
    exact hz.symm.trans (val_wrap_modEq w)
  · intro h
    ext
    rw [val_wrap, val_wrap]
    calc z.bmod 0x100000000 = (z % 0x100000000).bmod 0x100000000 := (Int.emod_bmod z _).symm
      _ = (w % 0x100000000).bmod 0x100000000 := congrArg (Int.bmod · 0x100000000) h
      _ = w.bmod 0x100000000 := Int.emod_bmod w _

end Scaled

/-! ### Words that wrap around -/

section Words

variable (a b : Int32)

theorem toInt_add_modEq : (a + b).toInt ≡ a.toInt + b.toInt [ZMOD 0x100000000] := by
  rw [Int32.toInt_add]
  exact Int.bmod_emod

theorem toInt_sub_modEq : (a - b).toInt ≡ a.toInt - b.toInt [ZMOD 0x100000000] := by
  rw [Int32.toInt_sub]
  exact Int.bmod_emod

theorem toInt_mul_modEq : (a * b).toInt ≡ a.toInt * b.toInt [ZMOD 0x100000000] := by
  rw [Int32.toInt_mul]
  exact Int.bmod_emod

end Words

namespace Format

variable {f : Format}

/-! ### Converted integers -/

/-- **An integer in the format**, modulo `2 ^ 32`. -/
def integer32 (f : Format) (k : Int32) : Scaled := .wrap (k.toInt * pow2 f.fracBits)

theorem ofInteger_of_wrapping (hf : f.overflow = .wrapping) (k : Int32) :
    f.ofInteger k = .ok (f.integer32 k) := by
  rw [ofInteger_eq, narrow, hf]
  rfl

/-- What an operation of a wrapping format computes. -/
theorem apply_of_wrapping (hf : f.overflow = .wrapping) {op : Op} (hop : op ≠ .divide)
    (a b : Scaled) : f.arithmetic.apply op a b = .ok (.wrap (f.exact op a b)) := by
  rw [apply_eq_narrow, if_neg fun h => hop h.1, narrow, hf]

/-- The scale divides the modulus. -/
theorem pow2_mul_pow2_fracBits (f : Format) :
    pow2 (32 - f.fracBits) * pow2 f.fracBits = 0x100000000 := by
  have hk : f.fracBits ≤ 30 := f.fracBits_le
  rw [← pow2_add, Nat.sub_add_cancel (by omega)]
  rfl

/-- **A converted integer is a multiple of the scale**, and the other factor is the integer
modulo what remains of the modulus. -/
theorem exists_val_integer (f : Format) (k : Int32) :
    ∃ m : ℤ, (f.integer32 k).val = m * pow2 f.fracBits ∧
      m ≡ k.toInt [ZMOD pow2 (32 - f.fracBits)] := by
  have hmod : (pow2 (32 - f.fracBits) : ℤ) * pow2 f.fracBits = 0x100000000 := by
    exact_mod_cast f.pow2_mul_pow2_fracBits
  obtain ⟨t, ht⟩ := (Scaled.val_wrap_modEq (k.toInt * pow2 f.fracBits)).symm.dvd
  refine ⟨k.toInt + pow2 (32 - f.fracBits) * t, ?_, ?_⟩
  · rw [integer32, eq_add_of_sub_eq' ht, ← hmod]
    ring
  · exact Int.ModEq.symm (Int.modEq_iff_dvd.mpr ⟨t, by ring⟩)

/-! ### The three operations -/

section Operations

variable (a b : Int32)

theorem exact_add_modEq : f.exact .add (f.integer32 a) (f.integer32 b) ≡
    (a + b).toInt * pow2 f.fracBits [ZMOD 0x100000000] := by
  calc (f.integer32 a).val + (f.integer32 b).val
      ≡ a.toInt * pow2 f.fracBits + b.toInt * pow2 f.fracBits [ZMOD 0x100000000] :=
        (Scaled.val_wrap_modEq _).add (Scaled.val_wrap_modEq _)
    _ = (a.toInt + b.toInt) * pow2 f.fracBits := (add_mul _ _ _).symm
    _ ≡ (a + b).toInt * pow2 f.fracBits [ZMOD 0x100000000] :=
        (toInt_add_modEq a b).symm.mul_right _

theorem exact_subtract_modEq : f.exact .subtract (f.integer32 a) (f.integer32 b) ≡
    (a - b).toInt * pow2 f.fracBits [ZMOD 0x100000000] := by
  calc (f.integer32 a).val - (f.integer32 b).val
      ≡ a.toInt * pow2 f.fracBits - b.toInt * pow2 f.fracBits [ZMOD 0x100000000] :=
        (Scaled.val_wrap_modEq _).sub (Scaled.val_wrap_modEq _)
    _ = (a.toInt - b.toInt) * pow2 f.fracBits := (sub_mul _ _ _).symm
    _ ≡ (a - b).toInt * pow2 f.fracBits [ZMOD 0x100000000] :=
        (toInt_sub_modEq a b).symm.mul_right _

/-- **The rounded product** of two converted integers is exact up to the modulus. -/
theorem exact_multiply_modEq : f.exact .multiply (f.integer32 a) (f.integer32 b) ≡
    (a * b).toInt * pow2 f.fracBits [ZMOD 0x100000000] := by
  have hmod : (pow2 (32 - f.fracBits) : ℤ) * pow2 f.fracBits = 0x100000000 := by
    exact_mod_cast f.pow2_mul_pow2_fracBits
  obtain ⟨m, hm, hmk⟩ := f.exists_val_integer a
  obtain ⟨l, hl, -⟩ := f.exists_val_integer b
  have hdivided : f.exact .multiply (f.integer32 a) (f.integer32 b) = m * (f.integer32 b).val := by
    rw [exact, hm, mul_right_comm]
    exact f.rounding.product_mul_right (pow2_pos _) _
  -- the second factor is a multiple of the scale, and so makes up for what the first one lacks
  have hraised : m * (f.integer32 b).val ≡ a.toInt * (f.integer32 b).val [ZMOD 0x100000000] := by
    obtain ⟨t, ht⟩ := hmk.dvd
    refine Int.modEq_iff_dvd.mpr ⟨t * l, ?_⟩
    rw [hl, ← hmod, ← sub_mul, ht]
    ring
  calc f.exact .multiply (f.integer32 a) (f.integer32 b)
      = m * (f.integer32 b).val := hdivided
    _ ≡ a.toInt * (f.integer32 b).val [ZMOD 0x100000000] := hraised
    _ ≡ a.toInt * (b.toInt * pow2 f.fracBits) [ZMOD 0x100000000] :=
        (Scaled.val_wrap_modEq _).mul_left _
    _ = a.toInt * b.toInt * pow2 f.fracBits := (mul_assoc _ _ _).symm
    _ ≡ (a * b).toInt * pow2 f.fracBits [ZMOD 0x100000000] :=
        (toInt_mul_modEq a b).symm.mul_right _

end Operations

/-- **Conversion into a wrapping format is a ring homomorphism** from the 32-bit integers that
wrap around, at every scale and under either rounding: every integer is converted, whether or
not its value in the format is in range, and the sum, the difference and the product of two
converted integers are the converted sum, difference and product. The constants of the format
are its one and its zero. -/
theorem ofInteger_hom (f : Format) (hf : f.overflow = .wrapping) (a b : Int32) :
    ∃ x y, f.ofInteger a = .ok x ∧ f.ofInteger b = .ok y ∧
      f.arithmetic.apply .add x y = f.ofInteger (a + b) ∧
      f.arithmetic.apply .subtract x y = f.ofInteger (a - b) ∧
      f.arithmetic.apply .multiply x y = f.ofInteger (a * b) ∧
      f.ofInteger 1 = .ok f.arithmetic.one ∧
      f.ofInteger 0 = .ok f.arithmetic.zero := by
  have hconvert := ofInteger_of_wrapping hf
  have happly : ∀ {op : Op} {k : Int32}, op ≠ .divide →
      f.exact op (f.integer32 a) (f.integer32 b) ≡ k.toInt * pow2 f.fracBits [ZMOD 0x100000000] →
      f.arithmetic.apply op (f.integer32 a) (f.integer32 b) = f.ofInteger k := by
    intro op k hop h
    rw [apply_of_wrapping hf hop, hconvert, Scaled.wrap_eq_wrap_iff.mpr h, integer32]
  have hone : f.integer32 1 = f.one := congrArg Scaled.wrap (one_mul _)
  have hzero : f.integer32 0 = .zero := by
    rw [integer32, show (0 : Int32).toInt = 0 from rfl, zero_mul]
    rfl
  refine ⟨f.integer32 a, f.integer32 b, hconvert a, hconvert b, ?_, ?_, ?_, ?_, ?_⟩
  · exact happly nofun (exact_add_modEq a b)
  · exact happly nofun (exact_subtract_modEq a b)
  · exact happly nofun (exact_multiply_modEq a b)
  · rw [hconvert, hone]
    rfl
  · rw [hconvert, hzero]
    rfl

/-- The finest scale, to nearest, wrapping. -/
def finestWrapping : Format := finestFormat.withOverflow .wrapping

/-- Two integers neither of which fits the finest scale, nor their product 32 bits: of either
nothing but its lowest two bits is left. -/
theorem ofInteger_hom_lost :
    finestWrapping.overflow = .wrapping ∧
    finestWrapping.ofInteger 2147483646 = .ok .least ∧
    finestWrapping.ofInteger (-1073741823) = .ok ⟨1073741824⟩ ∧
    finestWrapping.arithmetic.apply .multiply .least ⟨1073741824⟩ =
      finestWrapping.ofInteger (2147483646 * -1073741823) := by
  obtain ⟨x, y, hx, hy, -, -, hmul, -⟩ :=
    ofInteger_hom finestWrapping rfl 2147483646 (-1073741823)
  have hleast : finestWrapping.ofInteger 2147483646 = .ok .least := by decide
  have hunit : finestWrapping.ofInteger (-1073741823) = .ok ⟨1073741824⟩ := by decide
  obtain rfl : x = .least := Except.ok.inj (hx.symm.trans hleast)
  obtain rfl : y = ⟨1073741824⟩ := Except.ok.inj (hy.symm.trans hunit)
  exact ⟨rfl, hleast, hunit, hmul⟩

end Format

end ScaledGauss
