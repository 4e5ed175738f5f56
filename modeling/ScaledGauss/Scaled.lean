/-!
# Scaled integers

A fixed-point number is stored as a 32-bit integer, its **raw** value, and stands
for that integer divided by a power of two. The power is not part of the value:
it belongs to the format under which the value is read
(`ScaledGauss.Format`).

## Main definitions

– `ScaledGauss.Scaled`: a raw value, with its view `ScaledGauss.Scaled.val` as an
  integer;
– `ScaledGauss.Scaled.InRange`: the integers that are raw values;
– `ScaledGauss.Scaled.wrap`, `clamp`, `ofInt?`: the three ways to make an integer
  a raw value – modulo `2 ^ 32`, by the nearest end of the range, or not at all.
-/

namespace ScaledGauss

/-- **A scaled integer**: a fixed-point number without its scale. -/
structure Scaled where
  /-- The stored integer. -/
  raw : Int32
deriving DecidableEq

namespace Scaled

/-- The stored integer as a mathematical one. -/
def val (a : Scaled) : Int := a.raw.toInt

/-- The integers that are raw values. -/
def InRange (z : Int) : Prop := -0x80000000 ≤ z ∧ z < 0x80000000

instance (z : Int) : Decidable (InRange z) := inferInstanceAs (Decidable (_ ∧ _))

theorem inRange_val (a : Scaled) : InRange a.val := ⟨a.raw.le_toInt, a.raw.toInt_lt⟩

@[ext] theorem ext_val {a b : Scaled} (h : a.val = b.val) : a = b := by
  cases a; cases b
  exact congrArg Scaled.mk (Int32.toInt_inj.1 h)

/-! ### Order -/

instance : LT Scaled := ⟨fun a b => a.raw < b.raw⟩

instance : LE Scaled := ⟨fun a b => a.raw ≤ b.raw⟩

instance (a b : Scaled) : Decidable (a < b) := inferInstanceAs (Decidable (a.raw < b.raw))

instance (a b : Scaled) : Decidable (a ≤ b) := inferInstanceAs (Decidable (a.raw ≤ b.raw))

instance : Ord Scaled := ⟨fun a b => compareOfLessAndEq a b⟩

instance : Max Scaled := ⟨fun a b => if a ≤ b then b else a⟩

theorem lt_iff_val {a b : Scaled} : a < b ↔ a.val < b.val := Int32.lt_iff_toInt_lt

theorem le_iff_val {a b : Scaled} : a ≤ b ↔ a.val ≤ b.val := Int32.le_iff_toInt_le

/-! ### Particular values -/

/-- The raw value zero. -/
def zero : Scaled := ⟨0⟩

/-- The least raw value, `-2 ^ 31`. -/
def least : Scaled := ⟨Int32.minValue⟩

/-- The greatest raw value, `2 ^ 31 - 1`. -/
def greatest : Scaled := ⟨Int32.maxValue⟩

/-- Whether the value is zero. -/
def isZero (a : Scaled) : Bool := a = zero

@[simp] theorem val_zero : zero.val = 0 := rfl

@[simp] theorem val_least : least.val = -0x80000000 := rfl

@[simp] theorem val_greatest : greatest.val = 0x7fffffff := rfl

/-! ### Integers as raw values -/

/-- **Wrapping around**: the raw value congruent to `z` modulo `2 ^ 32`. -/
def wrap (z : Int) : Scaled := ⟨Int32.ofInt z⟩

/-- **Clamping**: the raw value nearest to `z`. -/
def clamp (z : Int) : Scaled :=
  if z < -0x80000000 then least else if 0x7fffffff < z then greatest else wrap z

/-- The raw value equal to `z`, if there is one. -/
def ofInt? (z : Int) : Option Scaled := if InRange z then some (wrap z) else none

theorem val_wrap (z : Int) : (wrap z).val = z.bmod 0x100000000 := Int32.toInt_ofInt

theorem val_wrap_of_inRange {z : Int} (h : InRange z) : (wrap z).val = z := by
  rw [val_wrap]
  obtain ⟨h1, h2⟩ := h
  exact Int.bmod_eq_of_le (by omega) (by omega)

@[simp] theorem wrap_val (a : Scaled) : wrap a.val = a :=
  ext_val (val_wrap_of_inRange a.inRange_val)

theorem val_clamp (z : Int) :
    (clamp z).val =
      if z < -0x80000000 then -0x80000000 else if 0x7fffffff < z then 0x7fffffff else z := by
  unfold clamp
  split
  · exact val_least
  · split
    · exact val_greatest
    · exact val_wrap_of_inRange ⟨by omega, by omega⟩

/-- The magnitude; that of the least value is cut to the greatest. -/
def abs (a : Scaled) : Scaled := clamp a.val.natAbs

/-- The raw value in decimal. -/
def text (a : Scaled) : String := toString a.val

end Scaled

end ScaledGauss
