import ScaledGauss.Proofs.Spelling

/-!
# The grammar of JSON texts

`ScaledGauss.Json.Document` writes one text for each document. A text that comes from
elsewhere may have blanks between any two tokens, may spell a character of a string in
several ways, and may hold numbers of any form. This file says what such texts are, without
the automaton that reads them, and then that the automaton makes the expected tokens of them.

* **Strings.** What stands between quotation marks is spelt piece by piece
  (`ScaledGauss.Json.Spelt`): a character stands for itself, or is escaped by a letter or by
  its four hexadecimal digits. Every such text is a string; it names characters
  (`ScaledGauss.Json.Names`) unless half of a surrogate pair is left alone in it.
* **Numbers** (`ScaledGauss.Json.Number`). The whole part is written without leading zeros,
  the digits after the point and those of the exponent as one likes.
* **Values** (`ScaledGauss.Json.IsValue`) are made of these, at any depth.

## Main results

– `ScaledGauss.Json.punctuates_string`, `ScaledGauss.Json.punctuates_name`: strings are
  tokens;
– `ScaledGauss.Json.spells_number`: a number is the token of its parts.
-/

namespace ScaledGauss

namespace Json

/-! ### Blanks -/

/-- **Blanks**, in any number. -/
def Blanks (w : List Char) : Prop := ∀ c ∈ w, c = ' ' ∨ c = '\t' ∨ c = '\n' ∨ c = '\r'

instance (w : List Char) : Decidable (Blanks w) := List.decidableBAll _ w

/-! ### Strings -/

/-- Characters that stand for themselves within a string. -/
def IsPlain (c : Char) : Prop := c ≠ '"' ∧ c ≠ '\\' ∧ ¬ c < ' '

instance (c : Char) : Decidable (IsPlain c) := inferInstanceAs (Decidable (_ ∧ _))

/-- The letters that escape a character, with the character that each stands for. -/
def shortEscapes : List (Char × Char) :=
  [('"', '"'), ('\\', '\\'), ('/', '/'), ('b', '\x08'), ('f', '\x0c'), ('n', '\n'), ('r', '\r'),
    ('t', '\t')]

/-- A hexadecimal digit, small or capital, and its value. -/
def IsHexDigit (c : Char) (v : Nat) : Prop :=
  v < 16 ∧ (c = Nat.digitChar v ∨ c = (Nat.digitChar v).toUpper)

/-- **An escaped unit** of sixteen bits, and its value. -/
inductive IsUnit : List Char → Nat → Prop
  | mk {c₃ c₂ c₁ c₀ : Char} {v₃ v₂ v₁ v₀ : Nat} :
    IsHexDigit c₃ v₃ → IsHexDigit c₂ v₂ → IsHexDigit c₁ v₁ → IsHexDigit c₀ v₀ →
      IsUnit ['\\', 'u', c₃, c₂, c₁, c₀] (16 * (16 * (16 * v₃ + v₂) + v₁) + v₀)

/-- **The spelling of a string**, piece by piece, between its quotation marks. -/
inductive Spelt : List Char → List Piece → Prop
  /-- Nothing. -/
  | nil : Spelt [] []
  /-- A character that stands for itself. -/
  | plain {c : Char} {t : List Char} {ps : List Piece} :
    IsPlain c → Spelt t ps → Spelt (c :: t) (.char c :: ps)
  /-- A character escaped by a letter. -/
  | escape {e c : Char} {t : List Char} {ps : List Piece} :
    (e, c) ∈ shortEscapes → Spelt t ps → Spelt ('\\' :: e :: t) (.char c :: ps)
  /-- A unit escaped by its digits. -/
  | unit {u t : List Char} {v : Nat} {ps : List Piece} :
    IsUnit u v → Spelt t ps → Spelt (u ++ t) (.unit v :: ps)

/-- **The characters that pieces name.** A unit names a character by itself unless it is half of
a surrogate pair; the two halves of a pair in order name one together. -/
inductive Names : List Piece → List Char → Prop
  /-- Nothing. -/
  | nil : Names [] []
  /-- A character. -/
  | char {c : Char} {ps : List Piece} {cs : List Char} :
    Names ps cs → Names (.char c :: ps) (c :: cs)
  /-- A unit. -/
  | unit {v : Nat} {ps : List Piece} {cs : List Char} :
    v < 0xD800 ∨ 0xE000 ≤ v → Names ps cs → Names (.unit v :: ps) (Char.ofNat v :: cs)
  /-- A surrogate pair. -/
  | pair {u v : Nat} {ps : List Piece} {cs : List Char} :
    0xD800 ≤ u ∧ u < 0xDC00 → 0xDC00 ≤ v ∧ v < 0xE000 → Names ps cs →
      Names (.unit u :: .unit v :: ps)
        (Char.ofNat (0x10000 + (u - 0xD800) * 0x400 + (v - 0xDC00)) :: cs)

/-- **A string**, whatever it names. -/
def IsString (t : List Char) : Prop := ∃ body ps, Spelt body ps ∧ t = '"' :: (body ++ ['"'])

/-- **A string that names a text.** -/
def IsName (t : List Char) (name : String) : Prop :=
  ∃ body ps, Spelt body ps ∧ Names ps name.toList ∧ t = '"' :: (body ++ ['"'])

/-! ### Numbers -/

/-- Digits as they are written. -/
def digitText (ds : List (Fin 10)) : List Char := ds.map fun d => Nat.digitChar d.val

/-- Digits read as a number, after a number already read. -/
def digitValue (start : Nat) (ds : List (Fin 10)) : Nat := digitsValue start (ds.map Fin.val)

/-- **The exponent of a written number.** -/
structure Exponent where
  /-- Whether its mark is a capital letter. -/
  capital : Bool
  /-- Whether it has a sign, and whether that is a minus sign. -/
  sign : Option Bool
  /-- Its digits, the first one apart. -/
  first : Fin 10
  /-- The other digits. -/
  digits : List (Fin 10)

/-- **A written number.** -/
structure Number where
  /-- Whether it has a minus sign. -/
  negative : Bool
  /-- The whole part, which is written without leading zeros. -/
  whole : Nat
  /-- The digits after the point; without digits there is no point. -/
  fraction : List (Fin 10)
  /-- The exponent, if there is one. -/
  exponent : Option Exponent

namespace Exponent

/-- The text of an exponent. -/
def text (e : Exponent) : List Char :=
  (if e.capital then 'E' else 'e') :: ((match e.sign with
    | some true => ['-']
    | some false => ['+']
    | none => []) ++ digitText (e.first :: e.digits))

/-- Its magnitude. -/
def power (e : Exponent) : Nat := digitValue 0 (e.first :: e.digits)

end Exponent

namespace Number

/-- The text of what follows the whole part up to the exponent. -/
def fractionText (ds : List (Fin 10)) : List Char := if ds = [] then [] else '.' :: digitText ds

/-- **The text of a number.** -/
def text (n : Number) : List Char :=
  (if n.negative then ['-'] else []) ++ (Nat.toDigits 10 n.whole ++
    (fractionText n.fraction ++ (n.exponent.map Exponent.text).getD []))

/-- **The parts of a number.** -/
def numeral (n : Number) : Numeral where
  negative := n.negative
  digits := digitValue n.whole n.fraction
  places := n.fraction.length
  powerNegative := n.exponent.bind Exponent.sign = some true
  power := (n.exponent.map Exponent.power).getD 0
  plain := n.fraction = [] ∧ n.exponent.isNone

end Number

/-! ### Values -/

mutual

/-- **A value**, of any kind and depth. -/
inductive IsValue : List Char → Prop
  | null : IsValue ['n', 'u', 'l', 'l']
  | true : IsValue ['t', 'r', 'u', 'e']
  | false : IsValue ['f', 'a', 'l', 's', 'e']
  | number (n : Number) : IsValue n.text
  | string {t : List Char} : IsString t → IsValue t
  /-- An array without elements. -/
  | nilArray {w : List Char} : Blanks w → IsValue ('[' :: (w ++ [']']))
  | array {t : List Char} : IsElements t → IsValue ('[' :: (t ++ [']']))
  /-- An object without members. -/
  | nilObject {w : List Char} : Blanks w → IsValue ('\x7b' :: (w ++ ['\x7d']))
  | object {t : List Char} : IsMembers t → IsValue ('\x7b' :: (t ++ ['\x7d']))

/-- The elements of an array that has some. -/
inductive IsElements : List Char → Prop
  | last {w v w' : List Char} : Blanks w → IsValue v → Blanks w' → IsElements (w ++ v ++ w')
  | more {w v w' t : List Char} :
    Blanks w → IsValue v → Blanks w' → IsElements t → IsElements (w ++ v ++ w' ++ ',' :: t)

/-- The members of an object that has some. Their names are strings of any kind. -/
inductive IsMembers : List Char → Prop
  | last {w k w₁ w₂ v w' : List Char} :
    Blanks w → IsString k → Blanks w₁ → Blanks w₂ → IsValue v → Blanks w' →
      IsMembers (w ++ (k ++ w₁ ++ ':' :: (w₂ ++ v)) ++ w')
  | more {w k w₁ w₂ v w' t : List Char} :
    Blanks w → IsString k → Blanks w₁ → Blanks w₂ → IsValue v → Blanks w' → IsMembers t →
      IsMembers (w ++ (k ++ w₁ ++ ':' :: (w₂ ++ v)) ++ w' ++ ',' :: t)

end

/-! ### What the automaton makes of them -/

section Strings

/-- A letter that escapes a character is known to the automaton. -/
theorem simpleEscape?_of_mem {e c : Char} (h : (e, c) ∈ shortEscapes) :
    simpleEscape? e = some c := by
  have hall : ∀ p ∈ shortEscapes, simpleEscape? p.1 = some p.2 := by decide
  exact hall _ h

theorem hexDigit?_of_isHexDigit {c : Char} {v : Nat} (h : IsHexDigit c v) :
    hexDigit? c = some v := by
  have hall : ∀ v < 16, hexDigit? (Nat.digitChar v) = some v ∧
      hexDigit? (Nat.digitChar v).toUpper = some v := by
    decide
  obtain ⟨hv, rfl | rfl⟩ := h
  · exact (hall v hv).1
  · exact (hall v hv).2

/-- Pieces name what they are decoded as. -/
theorem Names.decodePieces {ps : List Piece} {cs : List Char} (h : Names ps cs) :
    decodePieces ps = some cs := by
  induction h with
  | nil => rfl
  | char _ ih => rw [Json.decodePieces, ih]; rfl
  | @unit v ps cs hv _ ih =>
    have hlead : isLeading v = false := by simp [isLeading]; omega
    have htrail : isTrailing v = false := by simp [isTrailing]; omega
    rw [Json.decodePieces.eq_def]
    simp [hlead, htrail, ih]
  | @pair u v ps cs hu hv _ ih =>
    have hlead : isLeading u = true := by simp [isLeading]; omega
    have htrail : isTrailing v = true := by simp [isTrailing]; omega
    simp [Json.decodePieces, hlead, htrail, ih]

/-- **A spelt string is read up to its quotation mark.** -/
theorem Spelt.run {t : List Char} {ps : List Piece} (h : Spelt t ps) (before : List Piece)
    (rest : List Char) :
    (Lexer.string before).run (t ++ '"' :: rest) =
      .text ((Json.decodePieces (before.reverse ++ ps)).map String.ofList) ::
        Lexer.between.run rest := by
  induction h generalizing before with
  | nil => simp [Lexer.run, Lexer.step]
  | @plain c t ps hc _ ih =>
    obtain ⟨hq, hb, hs⟩ := hc
    rw [List.cons_append, Lexer.run]
    simp [Lexer.step, hq, hb, hs, ih]
  | @escape e c t ps he _ ih =>
    have hescape := simpleEscape?_of_mem he
    rw [List.cons_append, List.cons_append, Lexer.run, Lexer.run]
    simp [Lexer.step, hescape, ih]
  | @unit u t v ps hu _ ih =>
    obtain ⟨h₃, h₂, h₁, h₀⟩ := hu
    have hnone : simpleEscape? 'u' = none := by decide
    simp [Lexer.run, Lexer.step, hnone, hexDigit?_of_isHexDigit h₃, hexDigit?_of_isHexDigit h₂,
      hexDigit?_of_isHexDigit h₁, hexDigit?_of_isHexDigit h₀, ih]

theorem Spelt.punctuates {t : List Char} {ps : List Piece} (h : Spelt t ps) :
    Punctuates ('"' :: (t ++ ['"'])) [.text ((decodePieces ps).map String.ofList)] where
  ne_nil := List.cons_ne_nil _ _
  ends := (by decide : Ends ['"'])
  run rest := by
    have hopen : Lexer.begin '"' = ([], .string []) := by decide
    rw [List.cons_append, List.append_assoc, Lexer.run, Lexer.step, hopen]
    exact h.run [] rest

/-- **A string is a token.** -/
theorem punctuates_string {t : List Char} (h : IsString t) : ∃ o, Punctuates t [.text o] := by
  obtain ⟨body, ps, hspelt, rfl⟩ := h
  exact ⟨_, hspelt.punctuates⟩

/-- **A string that names a text** is the token of that text. -/
theorem punctuates_name {t : List Char} {name : String} (h : IsName t name) :
    Punctuates t [.text (some name)] := by
  obtain ⟨body, ps, hspelt, hnames, rfl⟩ := h
  have hpunct := hspelt.punctuates
  rwa [hnames.decodePieces, Option.map_some, String.ofList_toList] at hpunct

end Strings

section Numbers

open Lexer

theorem digit?_digitChar_fin (d : Fin 10) : digit? (Nat.digitChar d) = some d.val :=
  digit?_digitChar d d.isLt

/-- Digits after the point. -/
theorem run_fraction (x : Numeral) (ds : List (Fin 10)) (rest : List Char) :
    (number .fraction x).run (digitText ds ++ rest) =
      (number .fraction { x with
        digits := digitValue x.digits ds, places := x.places + ds.length }).run rest := by
  induction ds generalizing x with
  | nil => rfl
  | cons d ds ih =>
    rw [digitText, List.map_cons, List.cons_append, Lexer.run]
    simp only [step, Numeral.next, Numeral.digit, digit?_digitChar_fin, List.nil_append]
    rw [← digitText, ih]
    simp [digitValue, digitsValue, Nat.add_assoc, Nat.add_comm 1]

/-- Digits of an exponent. -/
theorem run_power (x : Numeral) (ds : List (Fin 10)) (rest : List Char) :
    (number .power x).run (digitText ds ++ rest) =
      (number .power { x with power := digitValue x.power ds }).run rest := by
  induction ds generalizing x with
  | nil => rfl
  | cons d ds ih =>
    rw [digitText, List.map_cons, List.cons_append, Lexer.run]
    simp only [step, Numeral.next, Numeral.digit, digit?_digitChar_fin, List.nil_append]
    rw [← digitText, ih]
    rfl

/-- The first digit after the point is read as the others are. -/
theorem run_point (x : Numeral) (d : Fin 10) (ds : List (Fin 10)) (rest : List Char) :
    (number .point x).run (digitText (d :: ds) ++ rest) =
      (number .fraction x).run (digitText (d :: ds) ++ rest) := by
  rw [digitText, List.map_cons, List.cons_append, Lexer.run, Lexer.run]
  simp only [step, Numeral.next, Numeral.digit, digit?_digitChar_fin]

/-- The first digit of an exponent is read as the others are, with or without a sign. -/
theorem run_mark {phase : Phase} (hp : phase = .mark ∨ phase = .sign) (x : Numeral) (d : Fin 10)
    (ds : List (Fin 10)) (rest : List Char) :
    (number phase x).run (digitText (d :: ds) ++ rest) =
      (number .power x).run (digitText (d :: ds) ++ rest) := by
  rw [digitText, List.map_cons, List.cons_append, Lexer.run, Lexer.run]
  obtain rfl | rfl := hp <;>
    simp only [step, Numeral.next, Numeral.digit, digit?_digitChar_fin]

/-- The fraction of a number, if it has one. -/
theorem run_fractionText {phase : Phase} (x : Numeral) (hp : phase = .zero ∨ phase = .whole)
    (ds : List (Fin 10)) (rest : List Char) :
    (number phase x).run (Number.fractionText ds ++ rest) =
      (number (if ds = [] then phase else .fraction) { x with
        digits := digitValue x.digits ds, places := x.places + ds.length
        plain := x.plain && ds = [] }).run rest := by
  cases ds with
  | nil => simp [Number.fractionText, digitValue, digitsValue]
  | cons d ds =>
    have hdot : digit? '.' = none := by decide
    rw [Number.fractionText, if_neg (List.cons_ne_nil _ _), List.cons_append, Lexer.run]
    simp only [step, Numeral.next, hdot, if_pos hp, if_true, List.nil_append]
    rw [run_point, run_fraction]
    simp

/-- The mark of an exponent may stand wherever a number may end. -/
theorem step_mark {phase : Phase} (x : Numeral)
    (hp : phase = .zero ∨ phase = .whole ∨ phase = .fraction) {c : Char} (hc : c = 'e' ∨ c = 'E') :
    (number phase x).step c = ([], number .mark { x with plain := false }) := by
  obtain rfl | rfl := hc
  · have hdigit : digit? 'e' = none := by decide
    simp [step, Numeral.next, hdigit, hp]
  · have hdigit : digit? 'E' = none := by decide
    simp [step, Numeral.next, hdigit, hp]

/-- The sign of an exponent. -/
theorem step_sign (x : Numeral) :
    (number .mark x).step '+' = ([], number .sign x) ∧
      (number .mark x).step '-' = ([], number .sign { x with powerNegative := true }) := by
  have hplus : digit? '+' = none := by decide
  have hminus : digit? '-' = none := by decide
  constructor
  · simp [step, Numeral.next, hplus]
  · simp [step, Numeral.next, hminus]

/-- The exponent of a number. -/
theorem run_exponentText {phase : Phase} (x : Numeral)
    (hp : phase = .zero ∨ phase = .whole ∨ phase = .fraction) (hx : x.power = 0)
    (hn : x.powerNegative = false) (e : Exponent) (rest : List Char) :
    (number phase x).run (e.text ++ rest) =
      (number .power { x with
        power := e.power, powerNegative := e.sign = some true, plain := false }).run rest := by
  have hmark : (if e.capital then 'E' else 'e') = 'e' ∨ (if e.capital then 'E' else 'e') = 'E' := by
    cases e.capital <;> simp
  rw [Exponent.text, List.cons_append, Lexer.run, step_mark x hp hmark, List.nil_append,
    List.append_assoc]
  cases hs : e.sign with
  | none =>
    rw [List.nil_append, run_mark (.inl rfl), run_power]
    simp [hx, hn, Exponent.power]
  | some minus =>
    cases minus with
    | true =>
      rw [List.singleton_append, Lexer.run, (step_sign _).2, List.nil_append,
        run_mark (.inr rfl), run_power]
      simp [hx, Exponent.power]
    | false =>
      rw [List.singleton_append, Lexer.run, (step_sign _).1, List.nil_append,
        run_mark (.inr rfl), run_power]
      simp [hx, hn, Exponent.power]

/-- What follows the sign of a number. -/
theorem run_unsigned {s : Lexer} {negative : Bool}
    (hs : ∀ d < 10, s.step (Nat.digitChar d) =
      (number .start { negative := negative }).step (Nat.digitChar d))
    (n : Number) {rest : List Char} (hrest : Ends rest) :
    s.run (Nat.toDigits 10 n.whole ++ (Number.fractionText n.fraction ++
        ((n.exponent.map Exponent.text).getD [] ++ rest))) =
      .number { n.numeral with negative := negative } :: between.run rest := by
  have hwhole : (if n.whole = 0 then Phase.zero else .whole) = .zero ∨
      (if n.whole = 0 then Phase.zero else .whole) = .whole := by
    by_cases h : n.whole = 0 <;> simp [h]
  rw [run_digits hs, run_fractionText _ hwhole]
  generalize (if n.whole = 0 then Phase.zero else .whole) = phase at hwhole
  -- the number may end here, and an exponent may follow
  have hphase : (if n.fraction = [] then phase else .fraction) = .zero ∨
      (if n.fraction = [] then phase else .fraction) = .whole ∨
      (if n.fraction = [] then phase else .fraction) = .fraction := by
    by_cases h : n.fraction = []
    · rw [if_pos h]
      exact hwhole.imp_right .inl
    · rw [if_neg h]
      exact .inr (.inr rfl)
  cases he : n.exponent with
  | none =>
    have hcomplete : (if n.fraction = [] then phase else .fraction).complete := by
      obtain h | h | h := hphase <;> rw [h] <;> rfl
    rw [Option.map_none, Option.getD_none, List.nil_append, run_number _ hcomplete hrest]
    simp [Number.numeral, he]
  | some e =>
    rw [Option.map_some, Option.getD_some, run_exponentText _ hphase rfl rfl,
      run_number _ rfl hrest]
    simp [Number.numeral, he]

/-- **A number is the token of its parts.** -/
theorem spells_number (n : Number) : Spells n.text [.number n.numeral] := by
  intro rest hrest
  cases hneg : n.negative with
  | true =>
    have hminus : between.step '-' = ([], number .start { negative := true }) := by decide
    rw [Number.text, hneg, if_pos rfl, List.append_assoc, List.singleton_append, Lexer.run, hminus,
      List.nil_append, List.append_assoc, List.append_assoc, run_unsigned (fun _ _ => rfl) n hrest]
    simp [Number.numeral, hneg]
  | false =>
    rw [Number.text, hneg, if_neg Bool.false_ne_true, List.nil_append, List.append_assoc,
      List.append_assoc, run_unsigned step_between_digitChar n hrest]
    simp [Number.numeral, hneg]

end Numbers

/-! ### Texts cut off -/

/-- **A text is cut into tokens** if the automaton makes them of it whatever follows. Unlike a
text that punctuates it may be empty, or begin with what continues a number. -/
def Cuts (text : List Char) (ts : List Token) : Prop :=
  ∀ rest, Lexer.between.run (text ++ rest) = ts ++ Lexer.between.run rest

section Cuts

variable {a b text w w' : List Char} {ts us : List Token}

theorem cuts_nil : Cuts [] [] := fun _ => rfl

theorem Punctuates.cuts (h : Punctuates text ts) : Cuts text ts := h.run

theorem Cuts.append (ha : Cuts a ts) (hb : Cuts b us) : Cuts (a ++ b) (ts ++ us) := by
  intro rest
  rw [List.append_assoc, ha, hb, List.append_assoc]

theorem Cuts.append_spells (ha : Cuts a ts) (hb : Spells b us) : Spells (a ++ b) (ts ++ us) := by
  intro rest hrest
  rw [List.append_assoc, ha, hb rest hrest, List.append_assoc]

/-- Punctuation cuts off what is spelt before it. -/
theorem Spells.append_cuts (ha : Spells a ts) (hb : Punctuates b us) :
    Cuts (a ++ b) (ts ++ us) := by
  intro rest
  rw [List.append_assoc, ha _ (hb.ends.append hb.ne_nil _), hb.run, List.append_assoc]

theorem Blanks.tail {c : Char} (h : Blanks (c :: w)) : Blanks w :=
  fun d hd => h d (List.mem_cons_of_mem _ hd)

theorem punctuates_blank {c : Char} (h : c = ' ' ∨ c = '\t' ∨ c = '\n' ∨ c = '\r') :
    Punctuates [c] [] := by
  obtain rfl | rfl | rfl | rfl := h <;> exact punctuates_char (by decide) (by decide)

/-- Blanks are no tokens. -/
theorem Blanks.cuts (h : Blanks w) : Cuts w [] := by
  induction w with
  | nil => exact cuts_nil
  | cons c w ih => exact (punctuates_blank (h c (List.mem_cons_self ..))).cuts.append (ih h.tail)

theorem Blanks.spells (h : Blanks w) : Spells w [] := fun rest _ => h.cuts rest

/-- Blanks end a number, but only if there are some. -/
theorem Blanks.append_ends (h : Blanks w) (ht : Ends text) : Ends (w ++ text) := by
  cases w with
  | nil => exact ht
  | cons c w => exact (punctuates_blank (h c (List.mem_cons_self ..))).ends

/-- Blanks around a spelling do not matter. -/
theorem Spells.blanks (ht : Spells text ts) (h : Blanks w) (h' : Blanks w') :
    Spells (w ++ text ++ w') ts := by
  intro rest hrest
  rw [List.append_assoc, List.append_assoc, h.cuts, ht _ (h'.append_ends hrest), h'.cuts,
    List.nil_append, List.nil_append]

/-- Blanks punctuate, but only if there are some. -/
theorem Blanks.punctuates (h : Blanks w) (hne : w ≠ []) : Punctuates w [] where
  ne_nil := hne
  ends := by
    have hends : Ends (w ++ []) := h.append_ends trivial
    rwa [List.append_nil] at hends
  run := h.cuts

end Cuts

/-- A member without the blanks around it, as tokens. -/
theorem spells_member {k w₁ w₂ v : List Char} {name : Option String} {ts : List Token}
    (hk : Punctuates k [.text name]) (h₁ : Blanks w₁) (h₂ : Blanks w₂) (hv : Spells v ts) :
    Spells (k ++ w₁ ++ ':' :: (w₂ ++ v)) (.text name :: .colon :: ts) := by
  have hcolon : Cuts (w₁ ++ [':'] ++ w₂) [.colon] := by
    simpa using (h₁.cuts.append punctuates_colon.cuts).append h₂.cuts
  simpa using (hk.cuts.append hcolon).append_spells hv

end Json

end ScaledGauss
