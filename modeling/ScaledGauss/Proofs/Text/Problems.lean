import ScaledGauss.Proofs.Text.Presentation

/-!
# Problems however they are written

A problem is a record like a configuration, with the configuration as one of its fields; the other
two are numbers, in an array that is marked as real or as raw. A raw value has one text. A real
has as many as there are numbers that are read as it (`ScaledGauss.Json.Numeral.real?`). It is
nearest to the short ones of these (`ScaledGauss.Json.Numeral.real?_of_short`), but not to all.

## Main results

– `ScaledGauss.Stored.closesText_values`: marked numbers are read from any text that presents
  them;
– `ScaledGauss.Problem.ofText_of_presents`: problems do not depend on how they are written.
-/

namespace ScaledGauss

open Json

/-! ### What presents what -/

/-- **Elements of an array that has some**, given the texts of each. -/
inductive ElementsOf {α : Type} (IsText : α → List Char → Prop) : List α → List Char → Prop
  | last {a : α} {w v w' : List Char} :
    Blanks w → IsText a v → Blanks w' → ElementsOf IsText [a] (w ++ v ++ w')
  | more {a : α} {as : List α} {w v w' t : List Char} :
    Blanks w → IsText a v → Blanks w' → ElementsOf IsText as t →
      ElementsOf IsText (a :: as) (w ++ v ++ w' ++ ',' :: t)

/-- **An array**, given the texts of its elements. -/
inductive ArrayOf {α : Type} (IsText : α → List Char → Prop) : List α → List Char → Prop
  | nil {w : List Char} : Blanks w → ArrayOf IsText [] ('[' :: (w ++ [']']))
  | elements {as : List α} {t : List Char} :
    ElementsOf IsText as t → ArrayOf IsText as ('[' :: (t ++ [']']))

/-- **A real** is written as any number that is read as it: the real nearest to the digits, as far
as 64 bits hold them, is multiplied or divided by a power of ten. -/
def IsReal (x : Binary64) (t : List Char) : Prop :=
  ∃ n : Number, n.numeral.real? = some x ∧ t = n.text

/-- **A raw value** is written as an integer. -/
def IsRaw (a : Scaled) (t : List Char) : Prop := t = (toString a.val).toList

/-- **Numbers of a problem**, marked by the name of the only member of an object. -/
def Values.IsText : Values → List Char → Prop
  | .real xs => IsSingle "real" (ArrayOf IsReal xs)
  | .raw as => IsSingle "raw" (ArrayOf IsRaw as)

/-- The fields of a problem. The numbers must be given. -/
def Problem.fields (p : Problem) : List Field := [
  ⟨"config", PresentsRecord p.config.fields, p.config = Config.standard⟩,
  ⟨"matrix", p.matrix.IsText, False⟩,
  ⟨"rhs", p.rhs.IsText, False⟩]

/-- **A text presents a problem**, with blanks around it. -/
def Problem.Presents (p : Problem) (text : List Char) : Prop :=
  ∃ w t w', Blanks w ∧ PresentsRecord p.fields t ∧ Blanks w' ∧ text = w ++ t ++ w'

/-! ### Arrays of numbers -/

section Arrays

variable {α : Type} {IsText : α → List Char → Prop} {value : Token → Option α}

/-- **Texts of elements are single tokens** that are read as these elements. -/
def Tokened (IsText : α → List Char → Prop) (value : Token → Option α) : Prop :=
  ∀ a v, IsText a v → ∃ t, Spells v [t] ∧ Begins [t] ∧ value t = some a

theorem ElementsOf.reads (htoken : Tokened IsText value) {as : List α} {t : List Char}
    (h : ElementsOf IsText as t) :
    ∃ ts, Spells t ts ∧ Begins ts ∧ ∀ rest,
      readElements value (ts ++ .closing .square :: rest) = .ok (as, rest) := by
  induction h with
  | @last a w v w' hw hv hw' =>
    obtain ⟨tok, hspells, hbegins, hvalue⟩ := htoken a v hv
    refine ⟨[tok], hspells.blanks hw hw', hbegins, fun rest => ?_⟩
    simp only [List.singleton_append, readElements, hvalue]
  | @more a as w v w' t hw hv hw' _ ih =>
    obtain ⟨tok, hspells, hbegins, hvalue⟩ := htoken a v hv
    obtain ⟨ts, hspells', -, hreads⟩ := ih
    refine ⟨tok :: .comma :: ts, ?_, hbegins.append (.comma :: ts), fun rest => ?_⟩
    · simpa using (hspells.blanks hw hw').join punctuates_comma hspells'
    · simp only [List.cons_append, readElements, hvalue, hreads rest]
      rfl

/-- **An array is read**, whatever the blanks in it. -/
theorem ArrayOf.reads (htoken : Tokened IsText value) {as : List α} {t : List Char}
    (h : ArrayOf IsText as t) : ClosesText (readList value) t as := by
  cases h with
  | @nil w hw =>
    exact ⟨_, (punctuates_enclosed punctuates_square hw.spells).cuts, trivial,
      fun rest => rfl⟩
  | @elements as t ht =>
    obtain ⟨ts, hspells, hbegins, hreads⟩ := ht.reads htoken
    refine ⟨_, (punctuates_enclosed punctuates_square hspells).cuts, trivial,
      fun rest => ?_⟩
    have hopened := hbegins.append (.closing .square :: rest)
    simp only [List.cons_append, List.append_assoc, List.nil_append]
    rw [readList, hreads rest]
    intro us hus
    rw [hus] at hopened
    exact hopened

end Arrays

theorem tokened_real : Tokened IsReal realOf := by
  rintro x v ⟨n, hx, rfl⟩
  exact ⟨_, spells_number n, trivial, hx⟩

theorem tokened_raw : Tokened IsRaw scaledOf := by
  rintro a v rfl
  exact ⟨_, spells_integer a.val, trivial, scaledOf_integerToken a⟩

namespace Stored

/-! ### Problems -/

/-- **Marked numbers are read.** -/
theorem closesText_values {x : Values} {t : List Char} (h : x.IsText t) :
    ClosesText Stored.values t x := by
  cases x with
  | real xs =>
    obtain ⟨v, hv, htokens⟩ := IsSingle.punctuates h
    obtain ⟨ts, hcuts, -, hreads⟩ := hv.reads tokened_real
    refine ⟨_, (htokens ts fun rest _ => hcuts rest).cuts, trivial, fun rest => ?_⟩
    simp only [List.cons_append, List.append_assoc, Stored.values, if_true]
    rw [hreads]
    rfl
  | raw as =>
    obtain ⟨v, hv, htokens⟩ := IsSingle.punctuates h
    obtain ⟨ts, hcuts, -, hreads⟩ := hv.reads tokened_raw
    have hname : "raw" ≠ "real" := by decide
    refine ⟨_, (htokens ts fun rest _ => hcuts rest).cuts, trivial, fun rest => ?_⟩
    simp only [List.cons_append, List.append_assoc, Stored.values, if_neg hname, if_true]
    rw [hreads]
    rfl

/-- A problem of which some fields have been given. -/
def problemState (p : Problem) (given : List String) : PartialProblem where
  config := if "config" ∈ given then some p.config else none
  matrix := if "matrix" ∈ given then some p.matrix else none
  rhs := if "rhs" ∈ given then some p.rhs else none

theorem served_problem (p : Problem) : Served (problemState p) problemSlots p.fields where
  serves := by
    refine .cons ?_ (.cons ?_ (.cons ?_ .nil))
    · exact serves_of (fun _ => rfl) (by simp [problemState]) fun _ h =>
        (closesText_config h).readsText
    · exact serves_of (fun _ => rfl) (by simp [problemState]) fun _ h =>
        (closesText_values h).readsText
    · exact serves_of (fun _ => rfl) (by simp [problemState]) fun _ h =>
        (closesText_values h).readsText
  distinct := (by decide : ["config", "matrix", "rhs"].Nodup)

/-- **A problem is read from every text that presents it.** -/
theorem closesText_problem {p : Problem} {t : List Char} (h : PresentsRecord p.fields t) :
    ClosesText Stored.problem t p := by
  obtain ⟨ns, hrecord, hns, hgiven⟩ := h
  simp only [Problem.fields, List.forall_mem_cons] at hgiven
  obtain ⟨hconfig, hmatrix, hrhs, -⟩ := hgiven
  refine (hrecord.reads (served_problem p) hns).bind fun rest => ?_
  simp only [problemState, getD_given hconfig, if_pos (hmatrix.resolve_right not_false),
    if_pos (hrhs.resolve_right not_false)]
  rfl

/-- A refused configuration refuses its problem, wherever in it the configuration is. -/
theorem failsText_problem {p : Problem} {b q : List Char} {e : ReadError}
    (hb : IsBefore p.fields "config" b) (hq : FailsText Stored.config q e) :
    FailsText Stored.problem (b ++ q) e := by
  have hfield : (⟨"config", PresentsRecord p.config.fields, p.config = Config.standard⟩ :
      Field) ∈ p.fields := by simp [Problem.fields]
  refine (hb.fails (served_problem p) hfield fun slot hslot hname given hgiven => ?_).bind
  simp only [problemSlots, List.mem_cons, List.not_mem_nil, or_false] at hslot
  obtain rfl | rfl | rfl := hslot
  · refine FailsText.atSlot ?_ hq
    exact if_neg hgiven
  · simp [Slot.of] at hname
  · simp [Slot.of] at hname

end Stored

/-- **Problems do not depend on how they are written.** Every text that presents a problem with
unknowns is read as that problem. -/
theorem Problem.ofText_of_presents {p : Problem} (hp : 1 ≤ p.config.dimension) {text : String}
    (h : p.Presents text.toList) : Problem.ofText text = .ok p := by
  obtain ⟨w, t, w', hw, ht, hw', htext⟩ := h
  have hdecode := (Stored.closesText_problem ht).decode hw hw' htext
  have hpos : p.config.dimension ≠ 0 := by omega
  simp [Problem.ofText, parse, hdecode, Config.checked, Config.validate, hpos, bind, Except.bind,
    pure, Except.pure]

end ScaledGauss
