import Mathlib.Data.List.Forall2
import ScaledGauss.Json.Token

/-!
# Spelling and punctuation

The automaton of `ScaledGauss.Json.Lexer` reads a text with more text after it, and what comes
after matters in one place only: a number has no mark of its own end, so it goes on as long as
the characters after it let it. Hence two notions.

* A text **spells** tokens (`ScaledGauss.Json.Spells`) if the automaton makes these
  tokens of it before any text that continues no number
  (`ScaledGauss.Json.Ends`).
* It **punctuates** (`ScaledGauss.Json.Punctuates`) if the automaton does so before any
  text at all, and if it ends a number before it. Brackets, commas, colons, blanks and
  strings are of this kind.

What stands between two elements of an array or two members of an object is always
punctuation, so the two notions compose to whole texts, and blanks between tokens
are punctuation that spells nothing: the layout does not matter.

## Main results

– `ScaledGauss.Json.Lexer.run_digits`: the digits of a natural number are read as that
  number;
– `ScaledGauss.Json.spells_intercalate`: what is spelt in parts, with punctuation between them,
  is spelt as a whole.
-/

namespace ScaledGauss

namespace Json

/-! ### Where a number ends -/

/-- A text whose first character, if it has one, continues no number. -/
def Ends : List Char → Prop
  | [] => True
  | c :: _ => digit? c = none ∧ c ≠ '.' ∧ c ≠ 'e' ∧ c ≠ 'E'

instance (text : List Char) : Decidable (Ends text) :=
  match text with
  | [] => inferInstanceAs (Decidable True)
  | _ :: _ => inferInstanceAs (Decidable (_ ∧ _))

theorem Ends.append {text : List Char} (h : Ends text) (hne : text ≠ []) (rest : List Char) :
    Ends (text ++ rest) := by
  cases text with
  | nil => exact absurd rfl hne
  | cons c text => exact h

theorem Numeral.next_eq_none {phase : Phase} (x : Numeral) {c : Char} {text : List Char}
    (hp : phase.complete) (h : Ends (c :: text)) : x.next phase c = none := by
  obtain ⟨hd, hdot, he, hE⟩ := h
  have hm : phase ≠ .mark := by rintro rfl; cases hp
  simp [Numeral.next, hd, hdot, he, hE, hm]

namespace Lexer

/-- A complete number is a token as soon as the text does not continue it. -/
theorem run_number {phase : Phase} (x : Numeral) (hp : phase.complete) {rest : List Char}
    (h : Ends rest) :
    (number phase x).run rest = .number x :: between.run rest := by
  cases rest with
  | nil => simp [run, finish, hp]
  | cons c rest => simp [run, step, x.next_eq_none hp h, hp]

/-! ### Digits -/

theorem digit?_digitChar : ∀ d < 10, digit? (Nat.digitChar d) = some d := by decide

/-- The first digit of a number may also come between two tokens. -/
theorem step_between_digitChar :
    ∀ d < 10, between.step (Nat.digitChar d) = (number .start {}).step (Nat.digitChar d) := by
  decide

/-- The digits of `n` are read as `n`, from any state in which a first digit begins a
number. -/
theorem run_digits {s : Lexer} {x : Numeral}
    (hs : ∀ d < 10, s.step (Nat.digitChar d) = (number .start x).step (Nat.digitChar d))
    (n : Nat) (rest : List Char) :
    s.run (Nat.toDigits 10 n ++ rest) =
      (number (if n = 0 then .zero else .whole) { x with digits := n }).run rest := by
  -- all digits but the last are those of `n / 10`, and the last one belongs to the text
  -- that follows them
  induction n using Nat.strongRecOn generalizing rest with
  | ind n ih =>
    rcases Nat.lt_or_ge n 10 with hn | hn
    · rw [Nat.toDigits_of_lt_base hn, List.singleton_append, run, hs n hn]
      simp [step, Numeral.next, Numeral.digit, digit?_digitChar n hn]
    · have hlast : n % 10 < 10 := Nat.mod_lt n (by decide)
      rw [Nat.toDigits_of_base_le (by decide) hn, List.append_assoc, ih (n / 10) (by omega),
        if_neg (by omega), if_neg (by omega), List.singleton_append, run]
      simp [step, Numeral.next, Numeral.digit, digit?_digitChar _ hlast, Nat.div_add_mod]

end Lexer

/-! ### Spelling and punctuation -/

/-- **A text spells tokens** if the automaton makes them of it before any text that
continues no number. -/
def Spells (text : List Char) (ts : List Token) : Prop :=
  ∀ rest, Ends rest → Lexer.between.run (text ++ rest) = ts ++ Lexer.between.run rest

/-- **A text punctuates** if the automaton makes its tokens of it whatever follows, and
if it ends a number before it. -/
structure Punctuates (text : List Char) (ts : List Token) : Prop where
  /-- Some character ends a number. -/
  ne_nil : text ≠ []
  /-- The first character does. -/
  ends : Ends text
  /-- Nothing after the text matters to its tokens. -/
  run : ∀ rest, Lexer.between.run (text ++ rest) = ts ++ Lexer.between.run rest

variable {a b text : List Char} {ts us : List Token}

theorem spells_nil : Spells [] [] := fun _ _ => rfl

theorem Punctuates.spells (h : Punctuates text ts) : Spells text ts := fun rest _ => h.run rest

theorem Punctuates.append (ha : Punctuates a ts) (hb : Punctuates b us) :
    Punctuates (a ++ b) (ts ++ us) where
  ne_nil := List.append_ne_nil_of_left_ne_nil ha.ne_nil b
  ends := ha.ends.append ha.ne_nil b
  run rest := by rw [List.append_assoc, ha.run, hb.run, List.append_assoc]

/-- Punctuation divides two spellings. -/
theorem Spells.join (ha : Spells a ts) {sep : List Char} {vs : List Token}
    (hsep : Punctuates sep vs) (hb : Spells b us) : Spells (a ++ sep ++ b) (ts ++ vs ++ us) := by
  intro rest hrest
  have hends : Ends (sep ++ (b ++ rest)) := hsep.ends.append hsep.ne_nil _
  rw [List.append_assoc, List.append_assoc, ha _ hends, hsep.run, hb rest hrest,
    List.append_assoc, List.append_assoc]

/-- A spelling between two punctuations punctuates: how it ends is no longer open. -/
theorem Spells.enclose (h : Spells text ts) (ha : Punctuates a us) {vs : List Token}
    (hb : Punctuates b vs) : Punctuates (a ++ text ++ b) (us ++ ts ++ vs) where
  ne_nil := by simp [ha.ne_nil]
  ends := by
    rw [List.append_assoc]
    exact ha.ends.append ha.ne_nil _
  run rest := by
    have hends : Ends (b ++ rest) := hb.ends.append hb.ne_nil _
    rw [List.append_assoc, List.append_assoc, ha.run, h _ hends, hb.run, List.append_assoc,
      List.append_assoc]

/-- Spellings in a row, divided by the same punctuation. -/
theorem spells_intercalate {sep : List Char} (hsep : Punctuates sep us)
    {texts : List (List Char)} {parts : List (List Token)} (h : List.Forall₂ Spells texts parts) :
    Spells (sep.intercalate texts) (us.intercalate parts) := by
  induction h with
  | nil => exact spells_nil
  | @cons text part texts parts hfirst hrest ih =>
    cases hrest with
    | nil => simpa using hfirst
    | cons hsecond htail =>
      rw [List.intercalate_cons_cons, List.intercalate_cons_cons]
      exact hfirst.join hsep ih

/-! ### Particular spellings -/

/-- A character that is a token, or a blank. -/
theorem punctuates_char {c : Char} (h : Lexer.begin c = (ts, .between)) (he : Ends [c]) :
    Punctuates [c] ts where
  ne_nil := List.cons_ne_nil _ _
  ends := he
  run rest := by rw [List.singleton_append, Lexer.run, Lexer.step, h]

theorem punctuates_comma : Punctuates [','] [.comma] := punctuates_char (by decide) (by decide)

theorem punctuates_colon : Punctuates [':'] [.colon] := punctuates_char (by decide) (by decide)

theorem punctuates_square :
    Punctuates ['['] [.opening .square] ∧ Punctuates [']'] [.closing .square] :=
  ⟨punctuates_char (by decide) (by decide), punctuates_char (by decide) (by decide)⟩

theorem punctuates_curly :
    Punctuates ['\x7b'] [.opening .curly] ∧ Punctuates ['\x7d'] [.closing .curly] :=
  ⟨punctuates_char (by decide) (by decide), punctuates_char (by decide) (by decide)⟩

end Json

end ScaledGauss
