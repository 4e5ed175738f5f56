import ScaledGauss.Proofs.Text.OnePass
import ScaledGauss.Proofs.Text.Problems

/-!
# Unsupported scales in texts

A format whose scale is not supported is refused where its text is closed. So what has been read
up to there decides, and the rest of the text is of no consequence: it may be cut short, or
malformed, or name fields twice, or ask for no unknowns. Conversely whatever is read has a
supported scale and has unknowns.

The texts up to there are again those of the grammar: a configuration before its format
(`ScaledGauss.Json.IsBefore`), and the format itself, in any of its forms. As reading takes one
pass, the same holds of whatever text there may be, of the grammar or not, whose own tokens make
the reader report the scale.

## Main results

– `ScaledGauss.Stored.failsText_format`: an unsupported scale is refused where its format ends;
– `ScaledGauss.LoadError.unsupportedScale_reported`: nothing that follows changes the report.
-/

namespace ScaledGauss

open Json

/-- **A text up to where the format of a configuration is closed**, with a number of fractional
bits. -/
inductive Config.ClosesFormat (fracBits : Nat) : List Char → Prop
  | mk {c : Config} {rounding : Rounding} {overflow : Overflow} {w b t : List Char} :
    Blanks w → IsBefore c.fields "format" b →
      PresentsRecord (formatFields fracBits rounding overflow) t →
      ClosesFormat fracBits (w ++ (b ++ t))

/-- **A text up to where the format of a problem is closed**, with a number of fractional bits. -/
inductive Problem.ClosesFormat (fracBits : Nat) : List Char → Prop
  | mk {p : Problem} {c : Config} {rounding : Rounding} {overflow : Overflow}
      {w b₀ b t : List Char} :
    Blanks w → IsBefore p.fields "config" b₀ → IsBefore c.fields "format" b →
      PresentsRecord (formatFields fracBits rounding overflow) t →
      ClosesFormat fracBits (w ++ (b₀ ++ (b ++ t)))

namespace Stored

/-- **A format is refused where its text is closed** if its scale is not supported. -/
theorem failsText_format {fracBits : Nat} (h : maxFracBits < fracBits) {rounding : Rounding}
    {overflow : Overflow} {t : List Char}
    (ht : PresentsRecord (formatFields fracBits rounding overflow) t) :
    FailsText Stored.format t (.unsupportedScale fracBits) := by
  obtain ⟨ns, hrecord, hns, hgiven⟩ := ht
  have hfinish := finish_formatState hgiven
  rw [dif_neg (Nat.not_le.2 h)] at hfinish
  refine (hrecord.reads (served_format _ _ _) hns).fails fun rest => ?_
  simp only [hfinish, bind, Except.bind]

end Stored

/-- **What is loaded has unknowns**, as its configuration is checked last. -/
theorem Config.pos_of_checked {α : Type} {loaded : Except LoadError α} (configOf : α → Config)
    {a : α}
    (h : (do
      let a ← loaded
      (configOf a).checked
      return a) = .ok a) :
    1 ≤ (configOf a).dimension := by
  cases loaded with
  | error e => cases h
  | ok a' =>
    have hchecked : ((configOf a').checked >>= fun _ => .ok a') = .ok a := h
    by_cases hd : (configOf a').dimension = 0
    · simp [Config.checked, Config.validate, hd, bind, Except.bind] at hchecked
    · have heq : a' = a := by
        simpa [Config.checked, Config.validate, hd, bind, Except.bind] using hchecked
      rw [← heq]
      omega

namespace LoadError

/-- **An unsupported scale is reported as soon as its format is closed**, whatever follows in the
text: after a beginning of the grammar that ends there, or any other beginning whose tokens are
enough for the report. The message of the report is that of the scale itself; the position in the
text, which would stand at its end, is left out (`ScaledGauss.Json.ReadError.message`). And what
is read, a configuration or a problem, has a supported scale and has unknowns. -/
theorem unsupportedScale_reported {fracBits : Nat} (h : maxFracBits < fracBits) :
    let e : LoadError := .unread (.unsupportedScale fracBits)
    (∀ (text : String) (p rest : List Char), text.toList = p ++ rest →
        Config.ClosesFormat fracBits p ∨
          Stored.config (Lexer.between.emitted p) = .error (.unsupportedScale fracBits) →
        Config.ofText text = .error e) ∧
      (∀ (text : String) (p rest : List Char), text.toList = p ++ rest →
        Problem.ClosesFormat fracBits p ∨
          Stored.problem (Lexer.between.emitted p) = .error (.unsupportedScale fracBits) →
        Problem.ofText text = .error e) ∧
      e.message = "JSON error: " ++ (Error.unsupportedScale fracBits).message ∧
      (∀ text c, Config.ofText text = .ok c → c.format.fracBits ≤ maxFracBits ∧ 1 ≤ c.dimension) ∧
      ∀ text p, Problem.ofText text = .ok p →
        p.config.format.fracBits ≤ maxFracBits ∧ 1 ≤ p.config.dimension := by
  intro e
  refine ⟨?_, ?_, rfl, ?_, ?_⟩
  · intro text p rest htext hp
    have hdecode : decode Stored.config text = .error (.unsupportedScale fracBits) := by
      obtain ⟨hw, hb, ht⟩ | hreport := hp
      · exact (Stored.failsText_config hb (Stored.failsText_format h ht)).decode hw htext
      · exact Stored.onePass_config.decode_of_emitted hreport htext
    simp [Config.ofText, parse, hdecode, bind, Except.bind, e]
  · intro text p rest htext hp
    have hdecode : decode Stored.problem text = .error (.unsupportedScale fracBits) := by
      obtain ⟨hw, hb₀, hb, ht⟩ | hreport := hp
      · exact (Stored.failsText_problem hb₀
          (Stored.failsText_config hb (Stored.failsText_format h ht))).decode hw htext
      · exact Stored.onePass_problem.decode_of_emitted hreport htext
    simp [Problem.ofText, parse, hdecode, bind, Except.bind, e]
  · exact fun text c hc => ⟨c.format.fracBits_le, Config.pos_of_checked id hc⟩
  · exact fun text p hp => ⟨p.config.format.fracBits_le, Config.pos_of_checked Problem.config hp⟩

/-- A problem whose format, an array within an array, is closed with thirty-one fractional bits is
refused for that, although what follows is no text at all; so is a configuration without
unknowns. -/
theorem unsupportedScale_reported_early :
    Problem.ofText "[[1,[31]?" = .error (.unread (.unsupportedScale 31)) ∧
      Config.ofText "\x7b\"dimension\":0,\"format\":[31],\"format\"" =
        .error (.unread (.unsupportedScale 31)) := by
  have hnil : Blanks [] := by decide
  have hbits : IsNatural (pow2 32) 31 ['3', '1'] := ⟨by decide, by decide⟩
  have hformat : PresentsRecord (formatFields 31 .truncate .wrapping) ['[', '3', '1', ']'] := by
    refine ⟨["frac_bits"], .inr (@IsArray.values _ [] _ _ [] [] ['3', '1'] [] rfl .nil hnil hbits
      hnil), by decide, ?_⟩
    simp only [formatFields, List.forall_mem_cons]
    exact ⟨.inl (by decide), .inr rfl, .inr rfl, by simp⟩
  constructor
  · let p : Problem := ⟨.standard, .raw [], .raw []⟩
    let c : Config := .ofDimension 1
    have hconfig : IsBefore p.fields "config" _ :=
      @IsBefore.array _ _ [] _ _ [] [] rfl rfl .nil hnil
    have hdimension : InOrder [⟨"dimension", IsNatural (pow2 64) 1, 1 = 3⟩] _ :=
      @InOrder.cons _ _ [] ['1'] [] [] hnil ⟨by decide, by decide⟩ hnil .nil
    have hbefore : IsBefore c.fields "format" _ :=
      @IsBefore.array _ _ _ _ _ _ [] rfl rfl hdimension hnil
    have hcloses : Problem.ClosesFormat 31 _ := .mk hnil hconfig hbefore hformat
    exact (unsupportedScale_reported (by decide)).2.1 _ _ ['?'] (by decide)
      (.inl hcloses)
  · let c : Config := .ofDimension 0
    have hdimension := @IsMember.field c.fields ⟨"dimension", _, _⟩ _ [] [] ['0'] (.head _)
      (isName_quoted (by decide)) hnil hnil ⟨by decide, by decide⟩
    have hleading := @Leading.cons _ [] _ [] _ _ _ hnil hdimension hnil .nil
    have hbefore := @IsBefore.object _ "format" _ [] _ [] [] _ hleading (by decide) (by decide) hnil
      (isName_quoted (by decide)) hnil hnil
    have hcloses : Config.ClosesFormat 31 _ := .mk hnil hbefore hformat
    exact (unsupportedScale_reported (by decide)).1 _ _ ",\"format\"".toList (by decide)
      (.inl hcloses)

end LoadError

end ScaledGauss
