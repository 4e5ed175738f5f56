import ScaledGauss.Json.Reader
import ScaledGauss.Proofs.Text.Grammar

/-!
# Values passed over

A member of an object that is no field may have any value, of any depth. The reader of such a
value keeps a stack of the brackets that are open and what may come next; here it is shown to
take every value of the grammar off the front.

The induction is over the grammar, and what it says of a value has to hold with any stack of
brackets below it: after the tokens of the value the reader is where it was, with a comma or a
closing bracket to come (`ScaledGauss.Json.Passes`). Of the elements of an array and the members
of an object it says the same, below the bracket that they stand in
(`ScaledGauss.Json.PassesIn`). Only at the very bottom, with no bracket open, does the end of the
value end the reading (`ScaledGauss.Json.resume`).

## Main results

– `ScaledGauss.Json.IsValue.passes`: a value is passed over, below any brackets;
– `ScaledGauss.Json.IsValue.skips`: a value is skipped.
-/

namespace ScaledGauss

namespace Json

/-! ### Tokens that are passed over -/

/-- Reading on after a token: without open brackets the value is over. -/
def resume (brackets : List Delimiter) (expected : Expected) (rest : List Token) :
    Except ReadError (List Token) :=
  if brackets = [] ∧ expected = .separator then .ok rest else skipFrom brackets expected rest

theorem skipFrom_cons {brackets brackets' : List Delimiter} {expected expected' : Expected}
    {t : Token} (h : pass brackets expected t = some (brackets', expected')) (rest : List Token) :
    skipFrom brackets expected (t :: rest) = resume brackets' expected' rest := by
  rw [skipFrom, h, resume]
  cases brackets' with
  | nil => cases expected' <;> rfl
  | cons kind brackets' => cases expected' <;> rfl

/-- Below an open bracket nothing ends. -/
theorem resume_cons (kind : Delimiter) (brackets : List Delimiter) (expected : Expected)
    (rest : List Token) :
    resume (kind :: brackets) expected rest = skipFrom (kind :: brackets) expected rest :=
  if_neg fun h => List.cons_ne_nil _ _ h.1

/-- What is expected after an opening bracket, unless it is closed again. -/
def Delimiter.first : Delimiter → Expected
  | .square => .firstValue
  | .curly => .firstName

/-- What is expected after a comma. -/
def Delimiter.later : Delimiter → Expected
  | .square => .value
  | .curly => .name

/-- **A value is passed over**, below any brackets. -/
def Passes (ts : List Token) : Prop :=
  ∀ brackets rest expected, expected = .firstValue ∨ expected = .value →
    skipFrom brackets expected (ts ++ rest) = resume brackets .separator rest

/-- **What stands within a bracket is passed over**, from its beginning or after a comma. -/
def PassesIn (kind : Delimiter) (ts : List Token) : Prop :=
  ∀ brackets rest expected, expected = kind.first ∨ expected = kind.later →
    skipFrom (kind :: brackets) expected (ts ++ rest) = skipFrom (kind :: brackets) .separator rest

section Tokens

variable {kind : Delimiter} {ts us : List Token}

/-- The beginning of a value is the same wherever a value may begin. -/
theorem pass_eq_enter {expected : Expected} (h : expected = .firstValue ∨ expected = .value)
    {t : Token} (ht : ∀ kind, t ≠ .closing kind) (brackets : List Delimiter) :
    pass brackets expected t = enter brackets t := by
  obtain rfl | rfl := h
  · cases t with
    | closing kind => exact absurd rfl (ht kind)
    | _ => rfl
  · rfl

/-- A token that is a value by itself. -/
theorem passes_token {t : Token} (ht : ∀ kind, t ≠ .closing kind)
    (h : ∀ brackets, enter brackets t = some (brackets, .separator)) : Passes [t] := by
  intro brackets rest expected he
  exact skipFrom_cons ((pass_eq_enter he ht brackets).trans (h brackets)) rest

theorem pass_opening {expected : Expected} (h : expected = .firstValue ∨ expected = .value)
    (kind : Delimiter) (brackets : List Delimiter) :
    pass brackets expected (.opening kind) = some (kind :: brackets, kind.first) := by
  rw [pass_eq_enter h fun _ => Token.noConfusion]
  cases kind <;> rfl

/-- Brackets with nothing between them. -/
theorem passes_nil (kind : Delimiter) : Passes [.opening kind, .closing kind] := by
  intro brackets rest expected he
  have hclose : pass (kind :: brackets) kind.first (.closing kind) =
      some (brackets, .separator) := by
    cases kind <;> rfl
  exact ((skipFrom_cons (pass_opening he kind brackets) _).trans (resume_cons _ _ _ _)).trans
    (skipFrom_cons hclose rest)

/-- Brackets around what is passed over within them. -/
theorem PassesIn.enclose (h : PassesIn kind ts) :
    Passes (.opening kind :: (ts ++ [.closing kind])) := by
  intro brackets rest expected he
  have hclose : pass (kind :: brackets) .separator (.closing kind) =
      some (brackets, .separator) := by
    cases kind <;> rfl
  rw [List.cons_append, skipFrom_cons (pass_opening he kind brackets), resume_cons,
    List.append_assoc, h _ _ _ (.inl rfl)]
  exact skipFrom_cons hclose rest

/-- A comma divides what stands within a bracket. -/
theorem PassesIn.comma (ht : PassesIn kind ts) (hu : PassesIn kind us) :
    PassesIn kind (ts ++ .comma :: us) := by
  intro brackets rest expected he
  have hcomma : pass (kind :: brackets) .separator .comma =
      some (kind :: brackets, kind.later) := by
    cases kind <;> rfl
  rw [List.append_assoc, ht _ _ _ he, List.cons_append, skipFrom_cons hcomma, resume_cons,
    hu _ _ _ (.inr rfl)]

/-- An element. -/
theorem Passes.element (h : Passes ts) : PassesIn .square ts := by
  intro brackets rest expected he
  rw [h _ _ _ he, resume_cons]

/-- A member, whatever its name. -/
theorem Passes.member (h : Passes ts) (name : Option String) :
    PassesIn .curly (.text name :: .colon :: ts) := by
  intro brackets rest expected he
  have hname : pass (.curly :: brackets) expected (.text name) =
      some (.curly :: brackets, .colon) := by
    obtain rfl | rfl := he <;> rfl
  have hcolon : pass (.curly :: brackets) .colon .colon = some (.curly :: brackets, .value) := rfl
  rw [List.cons_append, List.cons_append, skipFrom_cons hname, resume_cons, skipFrom_cons hcolon,
    resume_cons, h _ _ _ (.inr rfl), resume_cons]

end Tokens

/-! ### Values of the grammar -/

/-- A letter word. -/
theorem spells_word {text : List Char} {t : Token}
    (h : ∀ rest, Lexer.between.run (text ++ rest) = t :: Lexer.between.run rest) :
    Spells text [t] := fun rest _ => h rest

/-- What is spelt between two brackets. -/
theorem punctuates_enclosed {kind : Delimiter} {opening closing : Char} {t : List Char}
    {ts : List Token}
    (h : Punctuates [opening] [.opening kind] ∧ Punctuates [closing] [.closing kind])
    (ht : Spells t ts) :
    Punctuates (opening :: (t ++ [closing])) (.opening kind :: (ts ++ [.closing kind])) := by
  simpa using ht.enclose h.1 h.2

mutual

/-- **A value of the grammar is passed over.** -/
theorem IsValue.passes {t : List Char} : IsValue t → ∃ ts, Spells t ts ∧ Passes ts
  | .null => ⟨[.null], spells_word fun _ => rfl, passes_token (by simp) fun _ => rfl⟩
  | .true => ⟨[.boolean true], spells_word fun _ => rfl, passes_token (by simp) fun _ => rfl⟩
  | .false => ⟨[.boolean false], spells_word fun _ => rfl, passes_token (by simp) fun _ => rfl⟩
  | .number n => ⟨_, spells_number n, passes_token (by simp) fun _ => rfl⟩
  | .string h => by
    obtain ⟨o, ho⟩ := punctuates_string h
    exact ⟨_, ho.spells, passes_token (by simp) fun _ => rfl⟩
  | .nilArray hw =>
    ⟨_, (punctuates_enclosed punctuates_square hw.spells).spells,
      passes_nil .square⟩
  | .array h => by
    obtain ⟨ts, hspells, hpasses⟩ := h.passes
    exact ⟨_, (punctuates_enclosed punctuates_square hspells).spells, hpasses.enclose⟩
  | .nilObject hw =>
    ⟨_, (punctuates_enclosed punctuates_curly hw.spells).spells,
      passes_nil .curly⟩
  | .object h => by
    obtain ⟨ts, hspells, hpasses⟩ := h.passes
    exact ⟨_, (punctuates_enclosed punctuates_curly hspells).spells, hpasses.enclose⟩

theorem IsElements.passes {t : List Char} : IsElements t → ∃ ts, Spells t ts ∧ PassesIn .square ts
  | .last hw hv hw' => by
    obtain ⟨ts, hspells, hpasses⟩ := hv.passes
    exact ⟨ts, hspells.blanks hw hw', hpasses.element⟩
  | .more hw hv hw' ht => by
    obtain ⟨ts, hspells, hpasses⟩ := hv.passes
    obtain ⟨us, hspells', hpasses'⟩ := ht.passes
    refine ⟨_, ?_, hpasses.element.comma hpasses'⟩
    simpa using (hspells.blanks hw hw').join punctuates_comma hspells'

theorem IsMembers.passes {t : List Char} : IsMembers t → ∃ ts, Spells t ts ∧ PassesIn .curly ts
  | .last hw hk h₁ h₂ hv hw' => by
    obtain ⟨o, ho⟩ := punctuates_string hk
    obtain ⟨ts, hspells, hpasses⟩ := hv.passes
    exact ⟨_, (spells_member ho h₁ h₂ hspells).blanks hw hw', hpasses.member o⟩
  | .more hw hk h₁ h₂ hv hw' ht => by
    obtain ⟨o, ho⟩ := punctuates_string hk
    obtain ⟨ts, hspells, hpasses⟩ := hv.passes
    obtain ⟨us, hspells', hpasses'⟩ := ht.passes
    refine ⟨_, ?_, (hpasses.member o).comma hpasses'⟩
    simpa using ((spells_member ho h₁ h₂ hspells).blanks hw hw').join punctuates_comma hspells'

end

/-- **A value of the grammar is skipped.** -/
theorem IsValue.skips {t : List Char} (h : IsValue t) :
    ∃ ts, Spells t ts ∧ ∀ rest, skipValue (ts ++ rest) = .ok rest := by
  obtain ⟨ts, hspells, hpasses⟩ := h.passes
  exact ⟨ts, hspells, fun rest => hpasses [] rest .value (.inr rfl)⟩

end Json

end ScaledGauss
