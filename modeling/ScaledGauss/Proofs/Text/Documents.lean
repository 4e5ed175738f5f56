import ScaledGauss.Json.Document
import ScaledGauss.Proofs.Text.Grammar

/-!
# The tokens of written documents

What `ScaledGauss.Json.Document` writes is one of the texts that the grammar allows, with the
least or the usual blanks. So the parts of a document are known to be spelt already: a name is a
string in which no character is escaped, and an integer is a number without a fraction or an
exponent. What is left to see is how the parts are put together. The two layouts differ in the
punctuation between them only, and have the same tokens.

## Main results

– `ScaledGauss.Json.spells_integer`: an integer is a token;
– `ScaledGauss.Json.Document.tokens_compact`,
  `ScaledGauss.Json.Document.tokens_pretty`: both layouts have the tokens
  `ScaledGauss.Json.Document.tokens`.
-/

namespace ScaledGauss

namespace Json

/-! ### Names, integers and new lines -/

/-- A name of plain characters. -/
def PlainName (name : String) : Prop := ∀ c ∈ name.toList, IsPlain c

instance (name : String) : Decidable (PlainName name) :=
  List.decidableBAll IsPlain name.toList

/-- A name of plain characters is written as it is. -/
theorem isName_quoted {name : String} (h : PlainName name) :
    IsName (Document.quoted name).toList name := by
  have hspelt : ∀ cs : List Char, (∀ c ∈ cs, IsPlain c) → Spelt cs (cs.map .char) := by
    intro cs hcs
    induction cs with
    | nil => exact .nil
    | cons c cs ih =>
      exact .plain (hcs c (List.mem_cons_self ..))
        (ih fun d hd => hcs d (List.mem_cons_of_mem _ hd))
  have hnames : ∀ cs : List Char, Names (cs.map .char) cs := by
    intro cs
    induction cs with
    | nil => exact .nil
    | cons c cs ih => exact .char ih
  exact ⟨_, _, hspelt _ h, hnames _, by simp [Document.quoted]⟩

/-- The token of an integer. -/
def integerToken (z : Int) : Token :=
  .number { negative := decide (z < 0), digits := z.natAbs }

/-- An integer in decimal is a number without a fraction or an exponent. -/
theorem spells_integer (z : Int) : Spells (toString z).toList [integerToken z] := by
  have htext : (⟨decide (z < 0), z.natAbs, [], none⟩ : Number).text = (toString z).toList := by
    rw [Int.toString_eq_repr, Int.repr_eq_if]
    split
    · next hz =>
      have habs : z.natAbs = z.toNat := by omega
      simp [Number.text, Number.fractionText, habs, Int.not_lt.2 hz]
    · next hz =>
      have habs : z.natAbs = (-z).toNat := by omega
      simp [Number.text, Number.fractionText, habs, Int.not_le.1 hz]
  rw [← htext]
  exact spells_number _

theorem punctuates_newline (level : Nat) : Punctuates (Document.newline level).toList [] := by
  have hblanks : Blanks ('\n' :: List.replicate (2 * level) ' ') := by
    intro c hc
    obtain rfl | hc := List.mem_cons.mp hc
    · exact .inr (.inr (.inl rfl))
    · exact .inl (List.eq_of_mem_replicate hc)
  simpa [Document.newline] using hblanks.punctuates (List.cons_ne_nil _ _)

/-! ### Documents -/

namespace Document

/-- Parts between brackets, with commas between them. -/
def bracketed (kind : Delimiter) (parts : List (List Token)) : List Token :=
  [.opening kind] ++ [.comma].intercalate parts ++ [.closing kind]

mutual

/-- **The tokens of a document.** -/
def tokens : Document → List Token
  | .integer value => [integerToken value]
  | .name text => [.text (some text)]
  | .list items => bracketed .square (itemTokens items)
  | .record members => bracketed .curly (memberTokens members)

/-- The tokens of each element of an array. -/
def itemTokens : List Document → List (List Token)
  | [] => []
  | item :: rest => tokens item :: itemTokens rest

/-- The tokens of each member of an object. -/
def memberTokens : List (String × Document) → List (List Token)
  | [] => []
  | (key, value) :: rest => (.text (some key) :: .colon :: tokens value) :: memberTokens rest

end

mutual

/-- **A plain document**: no character of a name in it has to be escaped. -/
def Plain : Document → Prop
  | .integer _ => True
  | .name text => PlainName text
  | .list items => PlainItems items
  | .record members => PlainMembers members

/-- Every element of an array is plain. -/
def PlainItems : List Document → Prop
  | [] => True
  | item :: rest => Plain item ∧ PlainItems rest

/-- Every member of an object is plain. -/
def PlainMembers : List (String × Document) → Prop
  | [] => True
  | (key, value) :: rest => PlainName key ∧ Plain value ∧ PlainMembers rest

end

/-- Spellings between brackets, whatever the blanks beside the brackets and commas. -/
theorem punctuates_bracketed {kind : Delimiter} {opening sep closing : List Char}
    (ho : Punctuates opening [.opening kind]) (hs : Punctuates sep [.comma])
    (hc : Punctuates closing [.closing kind]) {texts : List (List Char)}
    {parts : List (List Token)} (h : List.Forall₂ Spells texts parts) :
    Punctuates (opening ++ sep.intercalate texts ++ closing) (bracketed kind parts) :=
  (spells_intercalate hs h).enclose ho hc

section Layouts

variable {kind : Delimiter} {opening closing : Char} {lines : List String}
  {parts : List (List Token)}

/-- Lines between brackets, all on one line. -/
theorem spells_line (ho : Punctuates [opening] [.opening kind])
    (hc : Punctuates [closing] [.closing kind])
    (h : List.Forall₂ Spells (lines.map String.toList) parts) :
    Spells (String.ofList [opening] ++ ",".intercalate lines ++ String.ofList [closing]).toList
      (bracketed kind parts) := by
  simpa using (punctuates_bracketed ho punctuates_comma hc h).spells

/-- Lines between brackets, each on its own; without lines, there is no new line
either. -/
theorem spells_enclose (ho : Punctuates [opening] [.opening kind])
    (hc : Punctuates [closing] [.closing kind]) (level : Nat)
    (h : List.Forall₂ Spells (lines.map String.toList) parts) :
    Spells (enclose level (String.ofList [opening]) (String.ofList [closing]) lines).toList
      (bracketed kind parts) := by
  cases lines with
  | nil =>
    cases h
    simpa [enclose, bracketed] using (ho.append hc).spells
  | cons line lines =>
    have hopening := ho.append (punctuates_newline (level + 1))
    have hsep := punctuates_comma.append (punctuates_newline (level + 1))
    have hclosing := (punctuates_newline level).append hc
    simpa [enclose] using (punctuates_bracketed hopening hsep hclosing h).spells

end Layouts

mutual

/-- A plain document spells its tokens in both layouts. -/
theorem spells_tokens : ∀ d : Document, d.Plain →
    Spells d.compact.toList d.tokens ∧ ∀ level, Spells (d.prettyAt level).toList d.tokens
  | .integer z, _ => by
    simp only [compact, prettyAt, tokens]
    exact ⟨spells_integer z, fun _ => spells_integer z⟩
  | .name text, h => by
    simp only [compact, prettyAt, tokens]
    simp only [Plain] at h
    exact ⟨(punctuates_name (isName_quoted h)).spells, fun _ => (punctuates_name (isName_quoted h)).spells⟩
  | .list items, h => by
    simp only [Plain] at h
    obtain ⟨hcompact, hpretty⟩ := spells_itemTokens items h
    obtain ⟨ho, hc⟩ := punctuates_square
    simp only [compact, prettyAt, tokens]
    exact ⟨spells_line ho hc hcompact, fun level => spells_enclose ho hc level (hpretty _)⟩
  | .record members, h => by
    simp only [Plain] at h
    obtain ⟨hcompact, hpretty⟩ := spells_memberTokens members h
    obtain ⟨ho, hc⟩ := punctuates_curly
    simp only [compact, prettyAt, tokens]
    exact ⟨spells_line ho hc hcompact, fun level => spells_enclose ho hc level (hpretty _)⟩

/-- Elements of an array spell their tokens in both layouts. -/
theorem spells_itemTokens : ∀ items : List Document, PlainItems items →
    List.Forall₂ Spells ((compactItems items).map String.toList) (itemTokens items) ∧
      ∀ level, List.Forall₂ Spells ((prettyItems level items).map String.toList)
        (itemTokens items)
  | [], _ => by simp [compactItems, prettyItems, itemTokens]
  | item :: rest, h => by
    simp only [PlainItems] at h
    obtain ⟨hcompact, hpretty⟩ := spells_tokens item h.1
    obtain ⟨hcompacts, hpretties⟩ := spells_itemTokens rest h.2
    simp only [compactItems, prettyItems, itemTokens, List.map_cons]
    exact ⟨.cons hcompact hcompacts, fun level => .cons (hpretty level) (hpretties level)⟩

/-- Members of an object spell their tokens in both layouts. -/
theorem spells_memberTokens : ∀ members : List (String × Document), PlainMembers members →
    List.Forall₂ Spells ((compactMembers members).map String.toList) (memberTokens members) ∧
      ∀ level, List.Forall₂ Spells ((prettyMembers level members).map String.toList)
        (memberTokens members)
  | [], _ => by simp [compactMembers, prettyMembers, memberTokens]
  | (key, value) :: rest, h => by
    simp only [PlainMembers] at h
    obtain ⟨hcompact, hpretty⟩ := spells_tokens value h.2.1
    obtain ⟨hcompacts, hpretties⟩ := spells_memberTokens rest h.2.2
    simp only [compactMembers, prettyMembers, memberTokens, List.map_cons, String.toList_append]
    have hname := punctuates_name (isName_quoted h.1)
    have hnil : Blanks [] := by decide
    have hspace : Blanks [' '] := by decide
    refine ⟨.cons ?_ hcompacts, fun level => .cons ?_ (hpretties level)⟩
    · simpa using spells_member hname hnil hnil hcompact
    · simpa using spells_member hname hnil hspace (hpretty level)

end

/-- **The tokens of a document on one line.** -/
theorem tokens_compact {d : Document} (h : d.Plain) : Json.tokens d.compact = d.tokens := by
  simpa [Json.tokens, Lexer.run, Lexer.finish] using (spells_tokens d h).1 [] trivial

/-- **The tokens of a document laid out on several lines.** -/
theorem tokens_pretty {d : Document} (h : d.Plain) : Json.tokens d.pretty = d.tokens := by
  simpa [Json.tokens, pretty, Lexer.run, Lexer.finish] using (spells_tokens d h).2 0 [] trivial

end Document

end Json

end ScaledGauss
