import Mathlib.Algebra.Order.Field.Rat
import ScaledGauss.CommandLine.Run
import ScaledGauss.Proofs.Denotation
import ScaledGauss.Proofs.FirstFailure
import ScaledGauss.Proofs.Text.UnsupportedScale

/-!
# The problem that a run is about

Before anything is configured, a run obtains a problem: it loads one from a file, or it takes one
from the numbers among its arguments. This file says which problems these are
(`ScaledGauss.CommandLine.Options.Obtains`) and proves that a run obtains exactly them
(`ScaledGauss.CommandLine.problemOf_eq_ok_iff`).

The only step with arithmetic in it is the acceptance of raw values. A real is given as 64 bits, and
what is asked of it is that the number of these bits is an integer of 32 bits
(`ScaledGauss.Binary64.IsInt32`); what the library computes is a remainder and a quotient of the
significand by a power of two. The two agree
(`ScaledGauss.CommandLine.rawOf?_eq_some_iff`), as a dyadic rational is a natural number exactly
when the power of two divides the significand (`ScaledGauss.dyadic_eq_natCast_iff`). Of several
numbers that are no integers of 32 bits, the first one is reported, the matrix standing before the
right-hand side.
-/

namespace ScaledGauss

/-! ### Integers of 32 bits -/

theorem ofInt?_eq_some_iff {z : Int} {a : Scaled} : Scaled.ofInt? z = some a ↔ a.val = z := by
  rw [Scaled.ofInt?]
  constructor
  · intro h
    split_ifs at h with hz
    cases h
    exact Scaled.val_wrap_of_inRange hz
  · rintro rfl
    rw [if_pos a.inRange_val, Scaled.wrap_val]

/-- A power of two as a quotient of two of them, one of which is one. -/
theorem two_zpow_eq_div (e : ℤ) : (2 : ℚ) ^ e = 2 ^ e.toNat / 2 ^ (-e).toNat := by
  rw [← zpow_natCast, ← zpow_natCast, ← zpow_sub₀ two_ne_zero]
  congr 1
  omega

/-- **When a dyadic rational is a natural number**: nothing remains of its significand below the
point. -/
theorem dyadic_eq_natCast_iff {significand k : ℕ} {e : ℤ} :
    (significand : ℚ) * 2 ^ e = k ↔
      significand % pow2 (-e).toNat = 0 ∧
        significand / pow2 (-e).toNat * pow2 e.toNat = k := by
  have hne : (2 : ℚ) ^ (-e).toNat ≠ 0 := by positivity
  have hcross : (significand : ℚ) * 2 ^ e = k ↔
      significand * 2 ^ e.toNat = k * 2 ^ (-e).toNat := by
    rw [two_zpow_eq_div, ← mul_div_assoc, div_eq_iff hne]
    exact_mod_cast Iff.rfl
  rw [hcross, pow2_eq_pow, pow2_eq_pow]
  rcases le_or_gt 0 e with he | he
  · have hbelow : (-e).toNat = 0 := by omega
    rw [hbelow, pow_zero, mul_one, Nat.mod_one, Nat.div_one]
    exact (and_iff_right rfl).symm
  · have habove : e.toNat = 0 := by omega
    rw [habove, pow_zero, mul_one, mul_one]
    constructor
    · rintro rfl
      exact ⟨Nat.mul_mod_left _ _, Nat.mul_div_cancel _ (by positivity)⟩
    · rintro ⟨hmod, rfl⟩
      exact (Nat.div_mul_cancel (Nat.dvd_of_mod_eq_zero hmod)).symm

/-- What has no computed reading is no number. -/
theorem Binary64.value?_eq_none {x : Binary64}
    (h : ∀ negative significand exponent, x.denote ≠ .finite negative significand exponent) :
    x.value? = none := by
  rw [Option.eq_none_iff_forall_ne_some]
  intro v hv
  obtain ⟨negative, significand, exponent, hx, -⟩ := exists_dyadic hv
  exact h negative significand exponent hx

/-- **An integer of 32 bits**, given as a real. -/
def Binary64.IsInt32 (x : Binary64) : Prop :=
  ∃ z : ℤ, -2 ^ 31 ≤ z ∧ z < 2 ^ 31 ∧ x.value? = some (z : ℚ)

theorem Binary64.isInt32_iff {x : Binary64} :
    x.IsInt32 ↔ ∃ a : Scaled, x.value? = some (a.val : ℚ) := by
  constructor
  · rintro ⟨z, hlow, hhigh, hx⟩
    exact ⟨.wrap z, by rwa [Scaled.val_wrap_of_inRange ⟨hlow, hhigh⟩]⟩
  · rintro ⟨a, hx⟩
    obtain ⟨hlow, hhigh⟩ := a.inRange_val
    exact ⟨a.val, hlow, hhigh, hx⟩

namespace CommandLine

/-! ### Raw values among the arguments -/

section Raw

variable {x : Binary64} {xs ys : List Binary64} {a : Scaled} {values : List Scaled} {e : Failure}

open Binary64

/-- **The raw value that a real is** is the same number. -/
theorem rawOf?_eq_some_iff : rawOf? x = some a ↔ x.value? = some (a.val : ℚ) := by
  cases hx : x.denote with
  | finite negative significand exponent =>
    rw [rawOf?, hx, value?_of_finite hx, Option.some.injEq]
    by_cases hwhole : significand % pow2 (-exponent).toNat = 0
    · simp only [if_pos hwhole]
      rw [ofInt?_eq_some_iff, dyadic_eq_natCast_iff.mpr ⟨hwhole, rfl⟩,
        ← Int.cast_natCast (R := ℚ), signed_cast, Int.cast_inj, eq_comm]
    · simp only [if_neg hwhole]
      refine ⟨nofun, fun hvalue => ?_⟩
      -- the magnitude of an integer is a natural number
      have hmagnitude : (significand : ℚ) * 2 ^ exponent = a.val.natAbs := by
        rw [← abs_signed_dyadic negative, hvalue, Nat.cast_natAbs, Int.cast_abs]
      exact absurd (dyadic_eq_natCast_iff.mp hmagnitude).1 hwhole
  | infinite negative =>
    rw [rawOf?, hx, value?_eq_none (by simp [hx])]
    exact ⟨nofun, nofun⟩
  | undefined =>
    rw [rawOf?, hx, value?_eq_none (by simp [hx])]
    exact ⟨nofun, nofun⟩

theorem rawOf?_eq_none_iff : rawOf? x = none ↔ ¬x.IsInt32 := by
  rw [isInt32_iff, Option.eq_none_iff_forall_ne_some, not_exists]
  exact forall_congr' fun a => not_congr rawOf?_eq_some_iff

/-- **Raw values of reals**: the same numbers. -/
def AreRaw (xs : List Binary64) (values : List Scaled) : Prop :=
  List.Forall₂ (fun x a => x.value? = some (a.val : ℚ)) xs values

/-- A real is refused as a raw value. -/
def RefusedRaw (x : Binary64) (e : Failure) : Prop := ¬x.IsInt32 ∧ e = .notRaw x

theorem rawList_eq_ok_iff : rawList xs = .ok values ↔ AreRaw xs values := by
  have hraw : (fun (x : Binary64) (a : Scaled) => x.value? = some (a.val : ℚ)) =
      fun x a => rawOf? x = some a :=
    funext₂ fun _ _ => propext rawOf?_eq_some_iff.symm
  rw [rawList, mapM_eq_ok_iff, AreRaw, hraw]
  refine iff_of_eq (congrArg (List.Forall₂ · xs values) (funext₂ fun x a => ?_))
  cases rawOf? x <;> simp

theorem rawList_eq_error_iff : rawList xs = .error e ↔ FirstFails RefusedRaw xs e := by
  rw [rawList, mapM_eq_error_iff]
  refine iff_of_eq (congrArg (FirstFails · xs e) (funext₂ fun x e => ?_))
  rw [RefusedRaw, ← rawOf?_eq_none_iff]
  cases rawOf? x <;> simp [eq_comm]

/-- **Reals have raw values** exactly if they are integers of 32 bits. -/
theorem exists_areRaw_iff : (∃ values, AreRaw xs values) ↔ ∀ x ∈ xs, x.IsInt32 := by
  have hfirst : (∃ e, FirstFails RefusedRaw xs e) ↔ ∃ x ∈ xs, ¬x.IsInt32 := by
    simp [exists_firstFails_iff, RefusedRaw]
  rw [← not_iff_not]
  push Not
  rw [← hfirst]
  simp only [← rawList_eq_ok_iff, ← rawList_eq_error_iff]
  cases rawList xs <;> simp

/-- Two lists of reals have raw values together. -/
theorem forall_isInt32_iff :
    (∀ x ∈ xs ++ ys, x.IsInt32) ↔ ∃ values rest, AreRaw xs values ∧ AreRaw ys rest := by
  rw [List.forall_mem_append, ← exists_areRaw_iff, ← exists_areRaw_iff]
  simp only [exists_and_left, exists_and_right]

end Raw

/-! ### The problem obtained -/

/-- **A square system among the arguments**: as many numbers as some unknowns ask for. -/
structure Options.Square (o : Options) (n : Nat) : Prop where
  pos : 1 ≤ n
  matrix_length : o.matrix.length = n * n
  rhs_length : o.rhs.length = n

/-- **The problem that options lead to**, before it is configured. -/
inductive Options.Obtains (files : String → Except PathError ByteArray) (o : Options) :
    Problem → Prop
  /-- It is loaded from the file that is named. -/
  | loaded {path : String} {p : Problem} :
    o.input = some path → Problem.load (files path) = .ok p → Obtains files o p
  /-- It consists of the reals that are given. -/
  | reals {n : Nat} :
    o.Square n → o.raw = false →
      Obtains files o ⟨.ofDimension n, .real o.matrix, .real o.rhs⟩
  /-- It consists of the raw values that are given as reals. -/
  | raws {n : Nat} {matrix rhs : List Scaled} :
    o.Square n → o.raw = true → AreRaw o.matrix matrix → AreRaw o.rhs rhs →
      Obtains files o ⟨.ofDimension n, .raw matrix, .raw rhs⟩

section Obtained

variable {files : String → Except PathError ByteArray} {o : Options} {p : Problem} {n : Nat}

theorem Options.Square.ne_nil (h : o.Square n) : o.matrix ≠ [] ∧ o.rhs ≠ [] := by
  have hmatrix := Nat.mul_pos h.pos h.pos
  rw [← h.matrix_length] at hmatrix
  exact ⟨List.ne_nil_of_length_pos hmatrix, List.ne_nil_of_length_pos (h.rhs_length ▸ h.pos)⟩

/-- The lists of a square system pass the checks of their lengths. -/
theorem statedProblem_of_square (h : o.Square n) :
    statedProblem o =
      if o.raw then
        (do return ⟨.ofDimension n, .raw (← rawList o.matrix), .raw (← rawList o.rhs)⟩)
      else .ok ⟨.ofDimension n, .real o.matrix, .real o.rhs⟩ := by
  have hempty : ¬(o.matrix = [] ∨ o.rhs = []) := not_or.mpr h.ne_nil
  have hlength : ¬o.matrix.length ≠ n * n := not_not.mpr h.matrix_length
  rw [statedProblem, if_neg hempty, h.rhs_length, if_neg hlength]
  rfl

/-- Only square systems pass them. -/
theorem square_of_statedProblem (h : statedProblem o = .ok p) : o.Square o.rhs.length := by
  rw [statedProblem] at h
  split_ifs at h with hempty hlength
  all_goals
    obtain ⟨-, hrhs⟩ := not_or.mp hempty
    exact ⟨List.length_pos_iff.mpr hrhs, not_not.mp hlength, rfl⟩

theorem statedProblem_eq_ok_iff :
    statedProblem o = .ok p ↔ ∃ n, o.Square n ∧
      ((o.raw = false ∧ p = ⟨.ofDimension n, .real o.matrix, .real o.rhs⟩) ∨
        (o.raw = true ∧ ∃ matrix rhs, AreRaw o.matrix matrix ∧ AreRaw o.rhs rhs ∧
          p = ⟨.ofDimension n, .raw matrix, .raw rhs⟩)) := by
  have hsquare (n : Nat) (h : o.Square n) : statedProblem o = .ok p ↔
      (o.raw = false ∧ p = ⟨.ofDimension n, .real o.matrix, .real o.rhs⟩) ∨
        (o.raw = true ∧ ∃ matrix rhs, AreRaw o.matrix matrix ∧ AreRaw o.rhs rhs ∧
          p = ⟨.ofDimension n, .raw matrix, .raw rhs⟩) := by
    rw [statedProblem_of_square h]
    cases hraw : o.raw with
    | false => simp [eq_comm]
    | true =>
      simp only [if_true, bind_eq_ok_iff, rawList_eq_ok_iff, pure, Except.pure, Except.ok.injEq,
        @eq_comm _ _ p, exists_and_left, reduceCtorEq, false_and, false_or, true_and]
  constructor
  · intro h
    exact ⟨_, square_of_statedProblem h, (hsquare _ (square_of_statedProblem h)).mp h⟩
  · rintro ⟨n, h, hp⟩
    exact (hsquare n h).mpr hp

/-- **A run obtains the problem that its options lead to.** -/
theorem problemOf_eq_ok_iff (h : o.input = none ∨ o.matrix = [] ∧ o.rhs = []) :
    problemOf files o = .ok p ↔ o.Obtains files p := by
  cases hinput : o.input with
  | some path =>
    have hnot (n : Nat) (hs : o.Square n) : False := by
      rcases h with h | ⟨h, -⟩
      · cases hinput.symm.trans h
      · exact hs.ne_nil.1 h
    rw [problemOf, hinput, mapError_eq_ok_iff]
    constructor
    · exact .loaded hinput
    · rintro (⟨hpath, hload⟩ | ⟨hs, -⟩ | ⟨hs, -, -, -⟩)
      · obtain rfl := Option.some.inj (hinput.symm.trans hpath)
        exact hload
      · exact (hnot _ hs).elim
      · exact (hnot _ hs).elim
  | none =>
    rw [problemOf, hinput, statedProblem_eq_ok_iff]
    constructor
    · rintro ⟨n, hs, ⟨hraw, rfl⟩ | ⟨hraw, matrix, rhs, hmatrix, hrhs, rfl⟩⟩
      · exact .reals hs hraw
      · exact .raws hs hraw hmatrix hrhs
    · rintro (⟨hpath, -⟩ | ⟨hs, hraw⟩ | ⟨hs, hraw, hmatrix, hrhs⟩)
      · cases hinput.symm.trans hpath
      · exact ⟨_, hs, .inl ⟨hraw, rfl⟩⟩
      · exact ⟨_, hs, .inr ⟨hraw, _, _, hmatrix, hrhs, rfl⟩⟩

/-- **No problem is obtained** from numbers that are to be raw values and are not all of them; the
first that is none is the failure. -/
theorem problemOf_eq_error_iff_of_raw (hinput : o.input = none) (hs : o.Square n)
    (hraw : o.raw = true) {e : Failure} :
    problemOf files o = .error e ↔ FirstFails RefusedRaw (o.matrix ++ o.rhs) e := by
  rw [problemOf, hinput, statedProblem_of_square hs, if_pos hraw]
  exact pair_eq_error_iff_firstFails (fun _ => rawList_eq_error_iff) fun _ => rawList_eq_error_iff

/-- What is obtained has unknowns. -/
theorem Options.Obtains.pos (h : o.Obtains files p) : 1 ≤ p.config.dimension := by
  cases h with
  | loaded _ hload =>
    obtain ⟨text, -, htext⟩ := bind_eq_ok_iff.mp hload
    exact Config.pos_of_checked Problem.config htext
  | reals hs => exact hs.pos
  | raws hs => exact hs.pos

end Obtained

end CommandLine

end ScaledGauss
