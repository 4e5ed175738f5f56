import ScaledGauss.Proofs.Text.Records

/-!
# Configurations however they are written

A configuration can be written in many ways: its members in any order, or some of them left out,
with blanks between tokens and foreign members between the fields, or as an array; the same holds
of the format within it, and a policy is a name or an object with that name. Here it is proved
that reading does not depend on any of this. What a text **presents**
(`ScaledGauss.Config.Presents`) is said by the grammar alone, and every text that presents a
configuration with unknowns is read as that configuration.

The one liberty that is not given is to name a field twice. Wherever this happens, in the
configuration or in its format, the text is refused, and no continuation makes it good again
(`ScaledGauss.Config.RepeatsField`).

## Main results

– `ScaledGauss.Stored.closesText_format`, `ScaledGauss.Stored.closesText_config`: formats and
  configurations are read from any text that presents them;
– `ScaledGauss.Config.ofText_presented`: configurations do not depend on how they are written.
-/

namespace ScaledGauss

open Json

/-! ### What presents what -/

/-- **A natural number**, within its range. -/
def IsNatural (bound n : Nat) (t : List Char) : Prop := n < bound ∧ t = Nat.toDigits 10 n

/-- **One of several names**, as a string or as the name of the only member of an object, whose
value is null. -/
def IsChoice (name : String) (t : List Char) : Prop :=
  IsName t name ∨ IsSingle name (· = ['n', 'u', 'l', 'l']) t

/-- The fields of a format. The number of fractional bits need not be a supported one. -/
def formatFields (fracBits : Nat) (rounding : Rounding) (overflow : Overflow) : List Field := [
  ⟨"frac_bits", IsNatural (pow2 32) fracBits, fracBits = Format.standard.fracBits⟩,
  ⟨"rounding", IsChoice rounding.name, rounding = Format.standard.rounding⟩,
  ⟨"overflow", IsChoice overflow.name, overflow = Format.standard.overflow⟩]

/-- The fields of a format with a supported scale. -/
def Format.fields (f : Format) : List Field := formatFields f.fracBits f.rounding f.overflow

/-- The fields of a configuration. -/
def Config.fields (c : Config) : List Field := [
  ⟨"dimension", IsNatural (pow2 64) c.dimension, c.dimension = Config.standard.dimension⟩,
  ⟨"format", PresentsRecord c.format.fields, c.format = Config.standard.format⟩,
  ⟨"verbosity", IsNatural (pow2 64) c.verbosity, c.verbosity = Config.standard.verbosity⟩]

/-- **A text presents a configuration**, with blanks around it. -/
def Config.Presents (c : Config) (text : List Char) : Prop :=
  ∃ w t w', Blanks w ∧ PresentsRecord c.fields t ∧ Blanks w' ∧ text = w ++ t ++ w'

/-- **A text up to where a field is named for the second time** in the same object. Up to there
it is a text of the configuration. Within the format anything may have been given that a format
could hold, an unsupported scale too, since the scale is only checked at the end. -/
inductive Config.RepeatsField (c : Config) : List Char → Prop
  /-- A field of the configuration. -/
  | config {w p : List Char} : Blanks w → Repeats c.fields p → c.RepeatsField (w ++ p)
  /-- A field of the format, wherever the format is. -/
  | format {fracBits : Nat} {rounding : Rounding} {overflow : Overflow} {w b p : List Char} :
    Blanks w → IsBefore c.fields "format" b →
      Repeats (formatFields fracBits rounding overflow) p → c.RepeatsField (w ++ (b ++ p))

namespace Stored

/-! ### Values of fields -/

/-- A natural number is read. -/
theorem readsText_natural {bound n : Nat} {t : List Char} (h : IsNatural bound n t) :
    ReadsText (readToken (naturalOf bound)) t n := by
  obtain ⟨hn, rfl⟩ := h
  refine ⟨[integerToken n], ?_, trivial,
    reads_token (naturalOf_integerToken hn)⟩
  have htext : (toString (n : Int)).toList = Nat.toDigits 10 n := by
    simp [Int.toString_eq_repr, Int.repr_eq_if]
  exact htext ▸ spells_integer n

/-- A choice is read. -/
theorem readsText_choice {α : Type} {choice : String → Option α} {name : String} {a : α}
    (hchoice : choice name = some a) {t : List Char} (h : IsChoice name t) :
    ReadsText (readChoice choice) t a := by
  obtain hname | hsingle := h
  · exact ⟨_, (punctuates_name hname).spells, trivial,
      reads_choice hchoice⟩
  · obtain ⟨v, rfl, htokens⟩ := hsingle.punctuates
    have hnull : Spells ['n', 'u', 'l', 'l'] [.null] := spells_word fun _ => rfl
    refine ⟨_, (htokens _ hnull).spells, trivial, fun rest => ?_⟩
    simp [readChoice, hchoice]

/-- A field that is given, or has its standard value. -/
theorem getD_given {α : Type} {a standard : α} {given : Prop} [Decidable given]
    (h : given ∨ a = standard) : (if given then some a else none).getD standard = a := by
  by_cases hg : given
  · rw [if_pos hg, Option.getD_some]
  · rw [if_neg hg, Option.getD_none, h.resolve_left hg]

/-! ### Formats -/

section Formats

variable {fracBits : Nat} {rounding : Rounding} {overflow : Overflow}

/-- A format of which some fields have been given. -/
def formatState (fracBits : Nat) (rounding : Rounding) (overflow : Overflow) (given : List String) :
    PartialFormat where
  fracBits := if "frac_bits" ∈ given then some fracBits else none
  rounding := if "rounding" ∈ given then some rounding else none
  overflow := if "overflow" ∈ given then some overflow else none

theorem served_format (fracBits : Nat) (rounding : Rounding) (overflow : Overflow) :
    Served (formatState fracBits rounding overflow) formatSlots
      (formatFields fracBits rounding overflow) where
  serves := by
    refine .cons ?_ (.cons ?_ (.cons ?_ .nil))
    · exact serves_of (fun _ => rfl) (by simp [formatState]) fun _ => readsText_natural
    · exact serves_of (fun _ => rfl) (by simp [formatState]) fun _ =>
        readsText_choice rounding.ofName?_name
    · exact serves_of (fun _ => rfl) (by simp [formatState]) fun _ =>
        readsText_choice overflow.ofName?_name
  distinct := (by decide : ["frac_bits", "rounding", "overflow"].Nodup)

/-- What is left out of a format is supplied when it is closed. -/
theorem finish_formatState {given : List String}
    (h : ∀ f ∈ formatFields fracBits rounding overflow, f.name ∈ given ∨ f.Standard) :
    (formatState fracBits rounding overflow given).finish =
      if hb : fracBits ≤ maxFracBits then .ok ⟨fracBits, rounding, overflow, hb⟩
      else .error (.unsupportedScale fracBits) := by
  simp only [formatFields, List.forall_mem_cons] at h
  obtain ⟨hbits, hround, hover, -⟩ := h
  simp only [PartialFormat.finish, formatState, getD_given hbits, getD_given hround,
    getD_given hover]

/-- **A format is read from every text that presents it.** -/
theorem closesText_format {f : Format} {t : List Char} (h : PresentsRecord f.fields t) :
    ClosesText Stored.format t f := by
  obtain ⟨ns, hrecord, hns, hgiven⟩ := h
  have hfinish := finish_formatState hgiven
  rw [dif_pos f.fracBits_le] at hfinish
  refine (hrecord.reads (served_format _ _ _) hns).bind fun rest => ?_
  simp only [hfinish, bind, Except.bind, pure, Except.pure]

end Formats

/-! ### Configurations -/

/-- A configuration of which some fields have been given. -/
def configState (c : Config) (given : List String) : PartialConfig where
  dimension := if "dimension" ∈ given then some c.dimension else none
  format := if "format" ∈ given then some c.format else none
  verbosity := if "verbosity" ∈ given then some c.verbosity else none

theorem served_config (c : Config) : Served (configState c) configSlots c.fields where
  serves := by
    refine .cons ?_ (.cons ?_ (.cons ?_ .nil))
    · exact serves_of (fun _ => rfl) (by simp [configState]) fun _ => readsText_natural
    · exact serves_of (fun _ => rfl) (by simp [configState]) fun _ h =>
        (closesText_format h).readsText
    · exact serves_of (fun _ => rfl) (by simp [configState]) fun _ => readsText_natural
  distinct := (by decide : ["dimension", "format", "verbosity"].Nodup)

/-- What is left out of a configuration is supplied at its end. -/
theorem finish_configState {c : Config} {given : List String}
    (h : ∀ f ∈ c.fields, f.name ∈ given ∨ f.Standard) : (configState c given).finish = c := by
  simp only [Config.fields, List.forall_mem_cons] at h
  obtain ⟨hdim, hformat, hverb, -⟩ := h
  simp only [PartialConfig.finish, configState, getD_given hdim, getD_given hformat,
    getD_given hverb]

/-- **A configuration is read from every text that presents it.** -/
theorem closesText_config {c : Config} {t : List Char} (h : PresentsRecord c.fields t) :
    ClosesText Stored.config t c := by
  obtain ⟨ns, hrecord, hns, hgiven⟩ := h
  refine (hrecord.reads (served_config c) hns).bind fun rest => ?_
  simp only [finish_configState hgiven, pure, Except.pure]

/-- A refused format refuses its configuration, wherever in it the format is. -/
theorem failsText_config {c : Config} {b q : List Char} {e : ReadError}
    (hb : IsBefore c.fields "format" b) (hq : FailsText Stored.format q e) :
    FailsText Stored.config (b ++ q) e := by
  have hfield : (⟨"format", PresentsRecord c.format.fields, c.format = Config.standard.format⟩ :
      Field) ∈ c.fields := by simp [Config.fields]
  refine (hb.fails (served_config c) hfield fun slot hslot hname given hgiven => ?_).bind
  simp only [configSlots, List.mem_cons, List.not_mem_nil, or_false] at hslot
  obtain rfl | rfl | rfl := hslot
  · simp [Slot.of] at hname
  · refine FailsText.atSlot ?_ hq
    exact if_neg hgiven
  · simp [Slot.of] at hname

/-- A text that names a field twice is refused. -/
theorem decode_repeated {c : Config} {p rest : List Char} (h : c.RepeatsField p) {text : String}
    (htext : text.toList = p ++ rest) : decode Stored.config text = .error .malformed := by
  cases h with
  | config hw hp =>
    have hfails : FailsText Stored.config _ .malformed := (hp.fails (served_config c)).bind
    exact hfails.decode hw htext
  | format hw hb hp =>
    have hfails : FailsText Stored.format _ .malformed := (hp.fails (served_format _ _ _)).bind
    exact (failsText_config hb hfails).decode hw htext

end Stored

namespace Config

/-- **Configurations do not depend on how they are written.** Every text that presents a
configuration with unknowns is read as that configuration. A text in which some field is named
twice in the same object, be it the configuration or its format, is refused, whatever the second
value is and whatever comes after it; in the format, even if the scale given first is not a
supported one. -/
theorem ofText_presented (c : Config) :
    (1 ≤ c.dimension → ∀ text : String, c.Presents text.toList → Config.ofText text = .ok c) ∧
      ∀ (text : String) (p rest : List Char), c.RepeatsField p → text.toList = p ++ rest →
        Config.ofText text = .error (.unread .malformed) := by
  constructor
  · rintro hd text ⟨w, t, w', hw, ht, hw', htext⟩
    have hdecode := (Stored.closesText_config ht).decode hw hw' htext
    have hpos : c.dimension ≠ 0 := by omega
    simp [Config.ofText, parse, hdecode, Config.checked, Config.validate, hpos, bind, Except.bind,
      pure, Except.pure]
  · intro text p rest hp htext
    simp [Config.ofText, parse, Stored.decode_repeated hp htext, bind, Except.bind]

/-- A configuration is read with a foreign member first, its format as an array, a policy as an
object and the verbosity left out; with the number of unknowns given twice it is refused. -/
theorem ofText_presented_partial :
    let c : Config := ⟨2, { fracBits := 8, rounding := .nearest, overflow := .wrapping }, 0⟩
    Config.ofText
        "\x7b\"a\":[true],\"format\": [8, \x7b\"nearest\":null\x7d],\"dimension\":2\x7d" = .ok c ∧
      Config.ofText "\x7b\"dimension\":2,\"dimension\":3\x7d" = .error (.unread .malformed) := by
  intro c
  have hnil : Blanks [] := by decide
  have hspace : Blanks [' '] := by decide
  have hdimension := @IsMember.field c.fields ⟨"dimension", _, _⟩ _ [] [] ['2'] (.head _)
    (isName_quoted (by decide)) hnil hnil ⟨by decide, by decide⟩
  constructor
  · have hbits : InOrder [⟨"frac_bits", IsNatural (pow2 32) 8, 8 = 16⟩] _ :=
      @InOrder.cons _ _ [] ['8'] [] [] hnil ⟨by decide, by decide⟩ hnil .nil
    have hnearest : IsChoice "nearest" _ := .inr <|
      @IsSingle.mk _ _ [] _ [] [] _ [] hnil (isName_quoted (by decide)) hnil hnil rfl hnil
    have harray := @IsArray.values c.format.fields _ _ _ _ [' '] _ [] rfl hbits hspace hnearest hnil
    have hgiven : ∀ f ∈ c.format.fields, f.name ∈ ["frac_bits", "rounding"] ∨ f.Standard := by
      simp only [Format.fields, formatFields, List.forall_mem_cons]
      exact ⟨.inl (by decide), .inl (by decide), .inr rfl, by simp⟩
    have hformat : PresentsRecord c.format.fields _ := ⟨_, .inr harray, by decide, hgiven⟩
    have hother := @IsMember.other c.fields "a" _ [] [] _ (by simp [Config.fields])
      (isName_quoted (by decide)) hnil hnil (.array (@IsElements.last [] _ [] hnil .true hnil))
    have hmember := @IsMember.field c.fields ⟨"format", _, _⟩ _ [] [' '] _ (.tail _ (.head _))
      (isName_quoted (by decide)) hnil hspace hformat
    have hleading := @Leading.cons _ [] _ [] _ _ _ hnil hother hnil
      (@Leading.cons _ [] _ [] _ _ _ hnil hmember hnil .nil)
    have hobject := @IsObject.members c.fields _ [] _ [] _ _ hleading hnil hdimension hnil
    have hgiven' : ∀ f ∈ c.fields, f.name ∈ ["format", "dimension"] ∨ f.Standard := by
      simp only [Config.fields, List.forall_mem_cons]
      exact ⟨.inl (by decide), .inl (by decide), .inr rfl, by simp⟩
    have hconfig : PresentsRecord c.fields _ := ⟨_, .inl hobject, by decide, hgiven'⟩
    exact (ofText_presented c).1 (by decide) _ ⟨[], _, [], hnil, hconfig, hnil, by decide⟩
  · have hleading := @Leading.cons _ [] _ [] _ _ _ hnil hdimension hnil .nil
    have hrepeats := @Repeats.mk c.fields _ [] _ _ "dimension" hleading (by decide) (by decide) hnil
      (isName_quoted (by decide))
    exact (ofText_presented c).2 _ _ [':', '3', '\x7d'] (.config hnil hrepeats) (by decide)

end Config

end ScaledGauss
