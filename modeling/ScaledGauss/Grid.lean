import ScaledGauss.Word
import ScaledGauss.Scaled

/-!
# Rectangular tables of scaled integers

A `ScaledGauss.Grid r c` is a table of `r` rows and `c` columns. Its shape is part
of its type, so an index is in range by construction; only where an index or a
length comes from outside is it checked, in the functions that build a grid.

## Main definitions

– `ScaledGauss.Grid`, with `entry` and `set`;
– `ScaledGauss.Grid.identity`: the identity matrix over given constants;
– `ScaledGauss.Grid.ofFlat`, `ScaledGauss.columnOfFlat`: a square matrix and a
  column from row-major data, checked against a dimension;
– `ScaledGauss.Grid.swapFrom`: two rows exchanged from a column onward.
-/

namespace ScaledGauss

/-- **A table** of `r` rows and `c` columns. -/
abbrev Grid (r c : Nat) := Vector (Vector Scaled c) r

/-- **A column** of `n` values. -/
abbrev Column (n : Nat) := Vector Scaled n

/-- Reading a vector at a bounded index is reading it at the number. -/
theorem vector_get {α : Type} {n : Nat} (v : Vector α n) (i : Fin n) :
    v.get i = getElem v i.val i.isLt := rfl

/-- Reading a vector after one of its places was written. -/
theorem vector_get_set {α : Type} {n : Nat} (v : Vector α n) (i j : Fin n) (a : α) :
    (v.set i.val a i.isLt).get j = if i = j then a else v.get j := by
  simp only [vector_get, Vector.getElem_set, Fin.ext_iff]

namespace Grid

variable {r c : Nat}

/-- The entry in row `i` and column `j`. -/
def entry (g : Grid r c) (i : Fin r) (j : Fin c) : Scaled := (g.get i).get j

/-- The table whose entries are given by a function. -/
def ofEntries (f : Fin r → Fin c → Scaled) : Grid r c :=
  .ofFn fun i => .ofFn fun j => f i j

/-- One entry replaced. -/
def setEntry (g : Grid r c) (i : Fin r) (j : Fin c) (a : Scaled) : Grid r c :=
  g.set i.val ((g.get i).set j.val a j.isLt) i.isLt

@[simp] theorem entry_ofEntries (f : Fin r → Fin c → Scaled) (i : Fin r) (j : Fin c) :
    (ofEntries f).entry i j = f i j := by
  simp [entry, ofEntries, vector_get]

theorem entry_setEntry (g : Grid r c) (i k : Fin r) (j l : Fin c) (a : Scaled) :
    (g.setEntry i j a).entry k l = if i = k ∧ j = l then a else g.entry k l := by
  simp only [entry, setEntry, vector_get, Vector.getElem_set]
  by_cases hi : i = k
  · subst hi
    by_cases hj : j = l
    · subst hj; simp
    · simp [hj, Fin.val_inj]
  · simp [hi, Fin.val_inj]

@[ext] theorem ext_entry {g h : Grid r c} (e : ∀ i j, g.entry i j = h.entry i j) : g = h := by
  apply Vector.ext
  intro i hi
  apply Vector.ext
  intro j hj
  exact e ⟨i, hi⟩ ⟨j, hj⟩

/-- The rows, each as a list. -/
def toLists (g : Grid r c) : List (List Scaled) := g.toList.map Vector.toList

/-! ### Square matrices -/

/-- **The identity matrix** over given constants. -/
def identity (n : Nat) (one zero : Scaled) : Grid n n :=
  ofEntries fun i j => if i = j then one else zero

/-- The place of row `i` and column `j` in row-major order is below the square of
the dimension. -/
theorem flatIndex_lt {n : Nat} (i j : Fin n) : i.val * n + j.val < n * n :=
  calc i.val * n + j.val < i.val * n + n := Nat.add_lt_add_left j.isLt _
    _ = (i.val + 1) * n := (Nat.succ_mul _ _).symm
    _ ≤ n * n := Nat.mul_le_mul_right n i.isLt

/-- **A square matrix from row-major data.** The dimension must not be zero, its
square must be a size, and the data must have exactly that size. -/
def ofFlat (n : Nat) (data : Array Scaled) : Except Error (Grid n n) :=
  if n = 0 then .error .emptySystem
  else do
    let expected ← Word.size (n * n)
    if h : data.size = n * n then
      return ofEntries fun i j =>
        have := flatIndex_lt i j
        data[i.val * n + j.val]
    else
      .error (.dimensionMismatch .flattenedMatrix expected data.size)

/-! ### Exchanging rows -/

/-- The entries of one row before a column, and those of another from it onward. -/
def splice (start : Nat) (before after : Vector Scaled c) : Vector Scaled c :=
  .ofFn fun j => if j < start then before.get j else after.get j

/-- **Two rows exchanged from a column onward**; the columns before it stay. -/
def swapFrom (g : Grid r c) (i k : Fin r) (start : Nat) : Grid r c :=
  (g.set i.val (splice start (g.get i) (g.get k)) i.isLt).set k.val
    (splice start (g.get k) (g.get i)) k.isLt

/-- Exchanging two rows reads, from the given column onward, the other row of the
two. -/
theorem entry_swapFrom (g : Grid r c) (i k l : Fin r) (start : Nat) (j : Fin c) :
    (g.swapFrom i k start).entry l j =
      if j < start then g.entry l j
      else if l = i then g.entry k j else if l = k then g.entry i j else g.entry l j := by
  simp only [entry, swapFrom, splice, vector_get, Vector.getElem_set]
  by_cases hk : l = k
  · subst hk
    by_cases hi : l = i
    · subst hi; simp
    · simp [hi]
  · have hk' : ¬(k.val = l.val) := fun h => hk (Fin.ext h.symm)
    by_cases hi : l = i
    · subst hi; simp [hk']
    · have hi' : ¬(i.val = l.val) := fun h => hi (Fin.ext h.symm)
      simp [hk', hi', hi, hk]

end Grid

/-- **A column from data**, which must have exactly the size asked for. -/
def columnOfFlat (n : Nat) (data : Array Scaled) : Except Error (Column n) :=
  if h : data.size = n then .ok ⟨data, h⟩
  else .error (.dimensionMismatch .rightHandSide n data.size)

end ScaledGauss
