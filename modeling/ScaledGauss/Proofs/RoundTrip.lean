import ScaledGauss.Proofs.Text.Documents
import ScaledGauss.Stored.File

/-!
# What is written is read again

Formats, raw values, owned values and configurations are written as documents
(`ScaledGauss.Json.Document`) and read off tokens (`ScaledGauss.Json.Reader`). With the
tokens of a written document known (`ScaledGauss.Json.Document.tokens_compact`,
`ScaledGauss.Json.Document.tokens_pretty`), reading back is a matter of readers and tokens
alone: a reader **reads** tokens as a value (`ScaledGauss.Json.Reads`) if it takes exactly
these off the front of any sequence.

A record is read member by member into a record in the making, and the writer and the
reader of a record share neither the names of the members nor their order. That they fit
is said by `ScaledGauss.Json.Fills`: from the empty record, the members as they are
written lead to the record with every field given.

## Main results

– `ScaledGauss.Json.Fills.reads`: a record whose members fill it is read;
– `ScaledGauss.Stored.reads_format`, `reads_owned`, `reads_config`: the stored types;
– `ScaledGauss.Stored.read_written`: whatever is written is read again, and a
  configuration is refused only if it has no unknowns.
-/

namespace ScaledGauss

namespace Json

/-! ### Readers and tokens -/

/-- **A reader reads tokens as a value**: it takes them off the front, whatever
follows. -/
def Reads {α : Type} (read : Reader α) (ts : List Token) (a : α) : Prop :=
  ∀ rest, read (ts ++ rest) = .ok (a, rest)

section Readers

variable {α : Type} {a : α} {read : Reader α} {ts : List Token}

/-- A text with the right tokens is decoded. -/
theorem Reads.decode (h : Reads read ts a) {text : String} (ht : tokens text = ts) :
    decode read text = .ok a := by
  have hread := h []
  rw [List.append_nil] at hread
  simp [Json.decode, ht, hread, bind, Except.bind, pure, Except.pure]

theorem reads_token {value : Token → Option α} {t : Token} (h : value t = some a) :
    Reads (readToken value) [t] a := by
  intro rest
  simp [readToken, h]

theorem reads_choice {choice : String → Option α} {name : String} (h : choice name = some a) :
    Reads (readChoice choice) [.text (some name)] a := by
  intro rest
  simp [readChoice, h]

end Readers

/-! ### Integers -/

/-- An integer within the bounds is read; it is never written as a negative zero. -/
theorem integerOf_integerToken {least greatest z : Int} (hl : least ≤ z) (hg : z ≤ greatest) :
    integerOf least greatest (integerToken z) = some z := by
  have hz : (if decide (z < 0) then -(z.natAbs : Int) else z.natAbs) = z := by
    by_cases h : z < 0
    · rw [if_pos (decide_eq_true h)]
      omega
    · rw [if_neg (by simpa using h)]
      omega
  have hzero : ¬ (decide (z < 0) = true ∧ z.natAbs = 0) := by
    rintro ⟨h, h0⟩
    have hneg := of_decide_eq_true h
    omega
  simp only [integerOf, integerToken, hz]
  rw [if_neg]
  rintro (h | h | h | h)
  · cases h
  · exact hzero h
  · omega
  · omega

theorem scaledOf_integerToken (a : Scaled) : scaledOf (integerToken a.val) = some a := by
  obtain ⟨hl, hg⟩ := a.inRange_val
  rw [scaledOf, integerOf_integerToken hl (by omega), Option.map_some, Scaled.wrap_val]

theorem naturalOf_integerToken {bound n : Nat} (h : n < bound) :
    naturalOf bound (integerToken n) = some n := by
  rw [naturalOf, integerOf_integerToken (by omega) (by omega), Option.map_some, Int.toNat_natCast]

/-! ### Arrays of raw values -/

theorem itemTokens_scaled (as : List Scaled) :
    Document.itemTokens (as.map fun a => .integer a.val) =
      as.map fun a => [integerToken a.val] := by
  induction as with
  | nil => rfl
  | cons a as ih => simp [Document.itemTokens, Document.tokens, ih]

theorem readElements_scaled (a : Scaled) (as : List Scaled) (rest : List Token) :
    readElements scaledOf
        ([Token.comma].intercalate ((a :: as).map fun a => [integerToken a.val]) ++
          .closing .square :: rest) = .ok (a :: as, rest) := by
  induction as generalizing a with
  | nil => simp [readElements, scaledOf_integerToken]
  | cons b as ih =>
    have hb := ih b
    rw [List.map_cons] at hb
    rw [List.map_cons, List.map_cons, List.intercalate_cons_cons, List.append_assoc,
      List.append_assoc, List.singleton_append, List.singleton_append, readElements,
      scaledOf_integerToken]
    simp only [hb, bind, Except.bind, pure, Except.pure]

theorem reads_scaledList (as : List Scaled) :
    Reads (readList scaledOf) (Document.scaledList as).tokens as := by
  intro rest
  simp only [Document.scaledList, Document.tokens, Document.bracketed, itemTokens_scaled]
  cases as with
  | nil => rfl
  | cons a as =>
    -- the first token is a number, so the array is not empty to the reader either
    obtain ⟨more, hmore⟩ : ∃ more, [Token.comma].intercalate
        ((a :: as).map fun a => [integerToken a.val]) = integerToken a.val :: more := by
      simp [List.intercalate_cons_cons_left]
    have h := readElements_scaled a as rest
    rw [hmore] at h
    rw [hmore]
    simpa [readList, integerToken] using h

/-! ### Records -/

/-- **Filling a record**: the members, read one after the other, take a record in the
making to another one. -/
inductive Fills {ρ : Type} (slots : List (Slot ρ)) : ρ → List (String × Document) → ρ → Prop
  /-- Without members nothing changes. -/
  | nil (r : ρ) : Fills slots r [] r
  /-- The first member, then the others. -/
  | cons {r r' r'' : ρ} {name : String} {d : Document} {members : List (String × Document)} :
    Reads (readMember slots name r) d.tokens r' → Fills slots r' members r'' →
      Fills slots r ((name, d) :: members) r''

namespace Fills

variable {ρ : Type} {slots : List (Slot ρ)} {r r' : ρ} {members : List (String × Document)}

/-- A member that is read into the slot of its name, which is still open. -/
theorem field {α : Type} {name : String} {get : ρ → Option α} {put : ρ → α → ρ}
    {read : Reader α} {d : Document} {a : α}
    (hslot : slots.find? (·.name = name) = some (.of name get put read))
    (hget : get r = none) (hread : Reads read d.tokens a) (h : Fills slots (put r a) members r') :
    Fills slots r ((name, d) :: members) r' := by
  refine .cons (fun rest => ?_) h
  simp [readMember, hslot, Slot.of, hget, hread rest, bind, Except.bind, pure, Except.pure]

/-- The members of an object are read in as many rounds as there are members. -/
theorem readMembers (h : Fills slots r members r') (hne : members ≠ []) {rounds : Nat}
    (hrounds : members.length ≤ rounds) (rest : List Token) :
    readMembers slots rounds r
        ([Token.comma].intercalate (Document.memberTokens members) ++ .closing .curly :: rest) =
      .ok (r', rest) := by
  induction h generalizing rounds with
  | nil r => exact absurd rfl hne
  | @cons r r₁ r' name d members hread htail ih =>
    obtain ⟨rounds, rfl⟩ : ∃ k, rounds = k + 1 := ⟨rounds - 1, by simp at hrounds; omega⟩
    cases members with
    | nil =>
      cases htail
      simp [Document.memberTokens, Json.readMembers, hread (.closing .curly :: rest), bind,
        Except.bind, pure, Except.pure]
    | cons member members =>
      have hih := ih (List.cons_ne_nil _ _) (by simpa using hrounds)
      obtain ⟨key, value⟩ := member
      simp only [Document.memberTokens] at hih ⊢
      rw [List.intercalate_cons_cons]
      simpa [Json.readMembers, hread _, bind, Except.bind] using hih

/-- Every member has a token of its own. -/
theorem length_le_memberTokens (members : List (String × Document)) :
    members.length ≤ ([Token.comma].intercalate (Document.memberTokens members)).length := by
  induction members with
  | nil => exact Nat.zero_le _
  | cons member members ih =>
    obtain ⟨key, value⟩ := member
    cases members with
    | nil => simp [Document.memberTokens]
    | cons member members =>
      simp only [Document.memberTokens] at ih ⊢
      rw [List.intercalate_cons_cons]
      simp only [List.length_append, List.length_cons] at ih ⊢
      omega

/-- **A record whose members fill it is read.** -/
theorem reads {empty : ρ} (h : Fills slots empty members r) :
    Reads (readRecord slots empty) (Document.record members).tokens r := by
  intro rest
  simp only [Document.tokens, Document.bracketed]
  cases members with
  | nil =>
    cases h
    rfl
  | cons member members =>
    obtain ⟨key, value⟩ := member
    have hlength := length_le_memberTokens ((key, value) :: members)
    -- the first token is a name, so the object is not empty to the reader either
    obtain ⟨more, hmore⟩ : ∃ more, [Token.comma].intercalate
        (Document.memberTokens ((key, value) :: members)) = .text (some key) :: more := by
      simp [Document.memberTokens, List.intercalate_cons_cons_left]
    rw [hmore] at hlength
    have hrounds : ((key, value) :: members).length ≤
        (.text (some key) :: more ++ .closing .curly :: rest).length := by
      simp only [List.length_append]
      omega
    have hread := h.readMembers (List.cons_ne_nil _ _) hrounds rest
    rw [hmore] at hread ⊢
    simpa [readRecord] using hread

end Fills

end Json

/-! ### The stored types -/

namespace Stored

open Json

theorem reads_scaled (a : Scaled) : Reads scaled (Document.integer a.val).tokens a :=
  reads_token (scaledOf_integerToken a)

theorem fills_format (f : Format) :
    Fills formatSlots {}
      [("frac_bits", .integer f.fracBits), ("rounding", .name f.rounding.name),
        ("overflow", .name f.overflow.name)]
      ⟨some f.fracBits, some f.rounding, some f.overflow⟩ := by
  have hbits : f.fracBits < pow2 32 := Nat.lt_of_le_of_lt f.fracBits_le (by decide)
  refine .field rfl rfl (reads_token (naturalOf_integerToken hbits)) ?_
  refine .field rfl rfl (reads_choice f.rounding.ofName?_name) ?_
  refine .field rfl rfl (reads_choice f.overflow.ofName?_name) ?_
  exact .nil _

/-- A format is read again: its scale is supported, so closing it is no obstacle. -/
theorem reads_format (f : Format) : Reads Stored.format f.document.tokens f := by
  intro rest
  have hfinish : (⟨some f.fracBits, some f.rounding, some f.overflow⟩ : PartialFormat).finish =
      .ok f := by
    simp [PartialFormat.finish, f.fracBits_le]
  have hread := (fills_format f).reads rest
  simp [Stored.format, Format.document, hread, hfinish, bind, Except.bind, pure, Except.pure]

/-- Owned values are read again. -/
theorem reads_owned (o : Owned (List Scaled)) : Reads Stored.owned o.document.tokens o := by
  intro rest
  have hparty : o.party.toNat < pow2 8 := o.party.toNat_lt
  have hfills : Fills ownedSlots {}
      [("party", .integer o.party.toNat), ("value", .scaledList o.value)]
      ⟨some o.party.toNat, some o.value⟩ := by
    refine .field rfl rfl (reads_token (naturalOf_integerToken hparty)) ?_
    refine .field rfl rfl (reads_scaledList o.value) ?_
    exact .nil _
  have hread := hfills.reads rest
  simp [Stored.owned, Owned.document, hread, bind, Except.bind, pure, Except.pure]

/-- A configuration is read again if its numbers fit 64 bits. -/
theorem reads_config {c : Config} (hd : c.dimension < pow2 64) (hv : c.verbosity < pow2 64) :
    Reads Stored.config c.document.tokens c := by
  intro rest
  have hfills : Fills configSlots {}
      [("dimension", .integer c.dimension), ("format", c.format.document),
        ("verbosity", .integer c.verbosity)]
      ⟨some c.dimension, some c.format, some c.verbosity⟩ := by
    refine .field rfl rfl (reads_token (naturalOf_integerToken hd)) ?_
    refine .field rfl rfl (reads_format c.format) ?_
    refine .field rfl rfl (reads_token (naturalOf_integerToken hv)) ?_
    exact .nil _
  have hread := hfills.reads rest
  simp [Stored.config, Config.document, hread, PartialConfig.finish, bind, Except.bind, pure,
    Except.pure]

/-! ### Texts -/

theorem plain_format (f : Format) : f.document.Plain := by
  have hrounding : PlainName f.rounding.name := by
    cases f.rounding <;> decide
  have hoverflow : PlainName f.overflow.name := by
    cases f.overflow <;> decide
  simp only [Format.document, Document.Plain, Document.PlainMembers]
  exact ⟨by decide, trivial, by decide, hrounding, by decide, hoverflow, trivial⟩

theorem plain_config (c : Config) : c.document.Plain := by
  simp only [Config.document, Document.Plain, Document.PlainMembers]
  exact ⟨by decide, trivial, by decide, plain_format c.format, by decide, trivial, trivial⟩

theorem plain_scaledList (as : List Scaled) : (Document.scaledList as).Plain := by
  simp only [Document.scaledList, Document.Plain]
  induction as with
  | nil => trivial
  | cons a as ih => simpa [Document.PlainItems, Document.Plain] using ih

theorem plain_owned (o : Owned (List Scaled)) : o.document.Plain := by
  simp only [Owned.document, Document.Plain, Document.PlainMembers]
  exact ⟨by decide, trivial, by decide, plain_scaledList o.value, trivial⟩

/-- The text of a configuration is read again, and refused if there are no unknowns. -/
theorem ofText_pretty {c : Config} (hd : c.dimension < pow2 64) (hv : c.verbosity < pow2 64) :
    Config.ofText c.document.pretty =
      if c.dimension = 0 then .error (.refused .emptySystem) else .ok c := by
  have hdecode := (reads_config hd hv).decode (Document.tokens_pretty (plain_config c))
  simp only [Config.ofText, parse, hdecode, Config.checked, Config.validate]
  by_cases hz : c.dimension = 0 <;> simp [hz, bind, Except.bind, pure, Except.pure]

/-- The bytes of a text are the bytes of that text. -/
theorem textOf_toUTF8 (text : String) : textOf (.ok text.toUTF8) = .ok text := by
  have hbytes : String.fromUTF8? text.toUTF8 = some text :=
    dif_pos text.isValidUTF8
  simp only [textOf, hbytes]

/-- **What is written is read again.** A format, a raw value or owned values on one line
are decoded as themselves. A configuration laid out on several lines, or saved in a file
and loaded from it, is the configuration again, except that one without unknowns is
refused. -/
theorem read_written :
    (∀ f : Format, decode Stored.format f.document.compact = .ok f) ∧
    (∀ a : Scaled, decode Stored.scaled (Document.integer a.val).compact = .ok a) ∧
    (∀ o : Owned (List Scaled), decode Stored.owned o.document.compact = .ok o) ∧
    ∀ c : Config, c.dimension < pow2 64 → c.verbosity < pow2 64 →
      (1 ≤ c.dimension → Config.ofText c.document.pretty = .ok c) ∧
      (c.dimension = 0 → Config.ofText c.document.pretty = .error (.refused .emptySystem)) ∧
      ∃ text, c.save true = .ok text ∧
        Config.load (.ok text.toUTF8) = Config.ofText c.document.pretty := by
  refine ⟨fun f => ?_, fun a => ?_, fun o => ?_, fun c hd hv => ?_⟩
  · exact (reads_format f).decode (Document.tokens_compact (plain_format f))
  · exact (reads_scaled a).decode (Document.tokens_compact (by simp [Document.Plain]))
  · exact (reads_owned o).decode (Document.tokens_compact (plain_owned o))
  · have htext := ofText_pretty hd hv
    refine ⟨fun hpos => ?_, fun hzero => ?_, c.document.pretty, rfl, ?_⟩
    · rw [htext, if_neg (by omega)]
    · rw [htext, if_pos hzero]
    · simp only [Config.load, textOf_toUTF8, bind, Except.bind]

/-- The greatest numbers that a configuration may hold are read again, and the greatest
verbosity does not save a configuration without unknowns. -/
theorem read_written_greatest :
    let f : Format := { fracBits := 30, rounding := .nearest, overflow := .checked }
    let full : Config := ⟨pow2 64 - 1, f, pow2 64 - 1⟩
    let empty : Config := ⟨0, f, pow2 64 - 1⟩
    Config.ofText full.document.pretty = .ok full ∧
      Config.ofText empty.document.pretty = .error (.refused .emptySystem) := by
  intro f full empty
  exact ⟨(read_written.2.2.2 full (by decide) (by decide)).1 (by decide),
    (read_written.2.2.2 empty (by decide) (by decide)).2.1 rfl⟩

end Stored

end ScaledGauss
