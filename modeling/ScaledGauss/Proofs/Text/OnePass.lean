import ScaledGauss.Stored.Reading

/-!
# Reading in one pass

A reader takes tokens off the front and never looks ahead, so more tokens at the end do not change
what it has decided: a value that is read is read again, with more left over, and an unsupported
scale that is reported is reported again (`ScaledGauss.Json.OnePass`). Only a text found malformed
may be mended by what follows, since running out of tokens is a fault of this kind too.

The property passes from the reader of a field to the reader of its record. A record read as an
object is given as many rounds as there are tokens, so with more tokens it has more rounds; the
rounds that are left over do no harm.

## Main results

– `ScaledGauss.Json.OnePass.decode_of_emitted`: what a beginning of a text reports is reported;
– `ScaledGauss.Json.OnePass.record`: records are read in one pass if their fields are;
– `ScaledGauss.Stored.onePass_config`, `ScaledGauss.Stored.onePass_problem`: configurations and
  problems are read in one pass.
-/

namespace ScaledGauss

namespace Json

/-- A result of reading, with more tokens left over. -/
def leaving {α : Type} (us : List Token) (x : α × List Token) : α × List Token := (x.1, x.2 ++ us)

/-- **A result stands** when tokens are added at the end: it is the same but for what is left
over, unless it was that the text is malformed. -/
def Stands {α : Type} (us : List Token) (x y : Except ReadError (α × List Token)) : Prop :=
  x ≠ .error .malformed → y = x.map (leaving us)

/-- **Reading in one pass**: what is decided on some tokens is decided on any that begin with
them, and nothing is decided on none. -/
structure OnePass {α : Type} (read : Reader α) : Prop where
  nil : read [] = .error .malformed
  stands : ∀ ts us, Stands us (read ts) (read (ts ++ us))

section Readers

variable {α β : Type} {us : List Token} {x y : Except ReadError (α × List Token)} {read : Reader α}

theorem stands_ok (a : α) (rest : List Token) :
    Stands us (.ok (a, rest)) (.ok (a, rest ++ us)) := fun _ => rfl

theorem stands_malformed : Stands us (.error .malformed) x := fun h => absurd rfl h

/-- One reading after another. -/
theorem Stands.bind (h : Stands us x y)
    {next next' : α × List Token → Except ReadError (β × List Token)}
    (hnext : ∀ a rest, Stands us (next (a, rest)) (next' (a, rest ++ us))) :
    Stands us (x >>= next) (y >>= next') := by
  cases x with
  | error e =>
    cases e with
    | malformed => exact stands_malformed
    | unsupportedScale fracBits =>
      rw [h nofun]
      exact fun _ => rfl
  | ok x =>
    rw [h nofun]
    exact hnext x.1 x.2

/-- **An unsupported scale is reported again.** -/
theorem OnePass.fails (h : OnePass read) {ts : List Token} {fracBits : Nat}
    (hread : read ts = .error (.unsupportedScale fracBits)) (us : List Token) :
    read (ts ++ us) = .error (.unsupportedScale fracBits) := by
  rw [h.stands ts us (by rw [hread]; exact nofun), hread]
  rfl

/-- **What the tokens that a text has ended already report** is reported of every longer text. -/
theorem OnePass.decode_of_emitted (h : OnePass read) {p : List Char} {fracBits : Nat}
    (hread : read (Lexer.between.emitted p) = .error (.unsupportedScale fracBits)) {text : String}
    {rest : List Char} (htext : text.toList = p ++ rest) :
    decode read text = .error (.unsupportedScale fracBits) := by
  rw [decode, tokens, htext, Lexer.run_append, h.fails hread]
  rfl

theorem OnePass.bind (h : OnePass read) {next : α × List Token → Except ReadError (β × List Token)}
    (hnext : ∀ a rest us, Stands us (next (a, rest)) (next (a, rest ++ us))) :
    OnePass fun ts => read ts >>= next where
  nil := by rw [h.nil]; rfl
  stands ts us := (h.stands ts us).bind fun a rest => hnext a rest us

theorem onePass_token (value : Token → Option α) : OnePass (readToken value) where
  nil := rfl
  stands ts us := by
    cases ts with
    | nil => exact stands_malformed
    | cons t ts =>
      simp only [List.cons_append, readToken]
      cases value t with
      | none => exact stands_malformed
      | some a => exact stands_ok a ts

theorem onePass_choice (choice : String → Option α) : OnePass (readChoice choice) where
  nil := rfl
  stands ts us := by
    fun_cases readChoice choice ts with
    | case1 name rest a hname => simpa [readChoice, hname] using stands_ok a rest
    | case2 => exact stands_malformed
    | case3 name rest a hname => simpa [readChoice, hname] using stands_ok a rest
    | case4 => exact stands_malformed
    | case5 => exact stands_malformed

theorem onePass_elements (value : Token → Option α) : OnePass (readElements value) where
  nil := rfl
  stands ts us := by
    fun_induction readElements value ts with
    | case1 t rest a hvalue => simpa [readElements, hvalue] using stands_ok [a] rest
    | case2 => exact stands_malformed
    | case3 t rest a hvalue ih =>
      simp only [List.cons_append, readElements, hvalue]
      exact ih.bind fun as rest => stands_ok (a :: as) rest
    | case4 => exact stands_malformed
    | case5 => exact stands_malformed

/-- **After an opening bracket** the reader looks at one token more, to see whether it closes the
bracket again; if there is none yet, nothing has been decided. -/
theorem stands_opened {kind : Delimiter} (inside : Reader α) (hnil : inside [] = .error .malformed)
    {rest : List Token} (hrest : ∀ rest', rest ≠ .closing kind :: rest')
    (hread : ∀ ts : List Token, (∀ rest', ts ≠ .closing kind :: rest') →
      read (.opening kind :: ts) = inside ts)
    (hinside : Stands us (inside rest) (inside (rest ++ us))) :
    Stands us (inside rest) (read (.opening kind :: (rest ++ us))) := by
  cases rest with
  | nil =>
    rw [hnil]
    exact stands_malformed
  | cons t rest =>
    rw [hread]
    · exact hinside
    · rintro _ ⟨⟩
      exact hrest _ rfl

theorem onePass_list (value : Token → Option α) : OnePass (readList value) where
  nil := rfl
  stands ts us := by
    fun_cases readList value ts with
    | case1 rest => exact stands_ok [] rest
    | case2 rest hrest =>
      refine stands_opened (readElements value) rfl hrest (fun ts hts => ?_)
        ((onePass_elements value).stands rest us)
      rw [readList]
      exact hts
    | case3 => exact stands_malformed

/-- A value passed over. -/
theorem onePass_skip (a : α) (brackets : List Delimiter) (expected : Expected) :
    OnePass fun ts => skipFrom brackets expected ts >>= fun rest => .ok (a, rest) where
  nil := rfl
  stands ts us := by
    induction ts generalizing brackets expected with
    | nil => exact stands_malformed
    | cons t ts ih =>
      simp only [List.cons_append, skipFrom]
      cases pass brackets expected t with
      | none => exact stands_malformed
      | some next =>
        obtain ⟨brackets', expected'⟩ := next
        cases brackets' with
        | nil =>
          cases expected' with
          | separator => exact stands_ok a ts
          | _ => exact ih _ _
        | cons kind brackets' => exact ih _ _

end Readers

/-! ### Records -/

section Records

variable {ρ α : Type} {slots : List (Slot ρ)}

/-- **Slots are read in one pass**, each from any record in the making. -/
def OnePassSlots (slots : List (Slot ρ)) : Prop := ∀ slot ∈ slots, ∀ r, OnePass (slot.read r)

theorem onePass_slot {name : String} {get : ρ → Option α} {put : ρ → α → ρ} {read : Reader α}
    (h : OnePass read) (r : ρ) : OnePass ((Slot.of name get put read).read r) where
  nil := by
    simp only [Slot.of, h.nil]
    cases get r <;> rfl
  stands ts us := by
    simp only [Slot.of]
    cases get r with
    | some a => exact stands_malformed
    | none => exact (h.stands ts us).bind fun a rest => stands_ok (put r a) rest

theorem onePass_member (h : OnePassSlots slots) (name : String) (r : ρ) :
    OnePass (readMember slots name r) := by
  unfold readMember
  cases hfind : slots.find? (·.name = name) with
  | some slot => exact h slot (List.mem_of_find?_eq_some hfind) r
  | none => exact onePass_skip r [] .value

/-- The members of an object begin with a name and a colon. -/
theorem readMembers_malformed {ts : List Token}
    (h : ∀ name rest, ts ≠ .text (some name) :: .colon :: rest) (rounds : Nat) (r : ρ) :
    readMembers slots rounds r ts = .error .malformed := by
  fun_cases readMembers slots rounds r ts with
  | case1 => exact absurd rfl (h _ _)
  | _ => rfl

/-- With more tokens and more rounds the members of an object are read as before. -/
theorem stands_members (h : OnePassSlots slots) {rounds more : Nat} (hmore : rounds ≤ more) (r : ρ)
    (ts us : List Token) :
    Stands us (readMembers slots rounds r ts) (readMembers slots more r (ts ++ us)) := by
  induction rounds generalizing more r ts with
  | zero => exact stands_malformed
  | succ rounds ih =>
    obtain ⟨more, rfl⟩ : ∃ k, more = k + 1 := ⟨more - 1, by omega⟩
    by_cases hts : ∃ name rest, ts = .text (some name) :: .colon :: rest
    · obtain ⟨name, ts, rfl⟩ := hts
      simp only [List.cons_append, readMembers]
      refine ((onePass_member h name r).stands ts us).bind fun r' rest => ?_
      match rest with
      | [] => exact stands_malformed
      | .comma :: rest => exact ih (by omega) r' rest
      | .closing .curly :: rest => exact stands_ok r' rest
      | .closing .square :: _ | .opening _ :: _ | .colon :: _ | .null :: _ | .boolean _ :: _
      | .number _ :: _ | .text _ :: _ | .bad :: _ => exact stands_malformed
    · rw [readMembers_malformed fun name rest he => hts ⟨name, rest, he⟩]
      exact stands_malformed

theorem onePass_inOrder (h : OnePassSlots slots) (r : ρ) : OnePass (readInOrder slots r) where
  nil := by
    cases slots with
    | nil => rfl
    | cons slot slots =>
      rw [readInOrder, (h slot (List.mem_cons_self ..) r).nil]
      rfl
  stands ts us := by
    induction slots generalizing r ts with
    | nil => exact stands_malformed
    | cons slot slots ih =>
      have hrest : OnePassSlots slots := fun slot hslot => h slot (List.mem_cons_of_mem _ hslot)
      simp only [readInOrder]
      refine ((h slot (List.mem_cons_self ..) r).stands ts us).bind fun r' rest => ?_
      match rest with
      | [] => exact stands_malformed
      | .comma :: rest => exact ih hrest r' rest
      | .closing .square :: rest => exact stands_ok r' rest
      | .closing .curly :: _ | .opening _ :: _ | .colon :: _ | .null :: _ | .boolean _ :: _
      | .number _ :: _ | .text _ :: _ | .bad :: _ => exact stands_malformed

/-- **A record is read in one pass** if its fields are. -/
theorem OnePass.record (h : OnePassSlots slots) (empty : ρ) : OnePass (readRecord slots empty) where
  nil := rfl
  stands ts us := by
    fun_cases readRecord slots empty ts with
    | case1 rest => exact stands_ok empty rest
    | case2 rest hrest =>
      refine stands_opened (fun ts => readMembers slots ts.length empty ts) rfl hrest
        (fun ts hts => ?_) (stands_members h (by simp) empty rest us)
      rw [readRecord]
      exact hts
    | case3 rest => exact stands_ok empty rest
    | case4 rest hrest =>
      refine stands_opened (readInOrder slots empty) (onePass_inOrder h empty).nil hrest
        (fun ts hts => ?_)
        ((onePass_inOrder h empty).stands rest us)
      rw [readRecord]
      exact hts
    | case5 => exact stands_malformed

end Records

end Json

namespace Stored

open Json

/-! ### The stored types -/

theorem onePass_format : OnePass Stored.format := by
  have hslots : OnePassSlots formatSlots := by
    rintro slot hslot r
    simp only [formatSlots, List.mem_cons, List.not_mem_nil, or_false] at hslot
    obtain rfl | rfl | rfl := hslot
    · exact onePass_slot (onePass_token _) r
    · exact onePass_slot (onePass_choice _) r
    · exact onePass_slot (onePass_choice _) r
  refine (OnePass.record hslots {}).bind fun r rest us => ?_
  cases hfinish : r.finish with
  | ok f =>
    simp only [hfinish]
    exact stands_ok f rest
  | error e =>
    simp only [hfinish]
    exact fun _ => rfl

/-- **Configurations are read in one pass.** -/
theorem onePass_config : OnePass Stored.config := by
  have hslots : OnePassSlots configSlots := by
    rintro slot hslot r
    simp only [configSlots, List.mem_cons, List.not_mem_nil, or_false] at hslot
    obtain rfl | rfl | rfl := hslot
    · exact onePass_slot (onePass_token _) r
    · exact onePass_slot onePass_format r
    · exact onePass_slot (onePass_token _) r
  exact (OnePass.record hslots {}).bind fun r rest us => stands_ok r.finish rest

/-- The bracket that closes the mark of some numbers. -/
theorem stands_closing (x : Values) (rest us : List Token) :
    Stands us
      (match rest with
        | .closing .curly :: rest => .ok (x, rest)
        | _ => .error .malformed)
      (match rest ++ us with
        | .closing .curly :: rest => .ok (x, rest)
        | _ => .error .malformed) := by
  match rest with
  | [] => exact stands_malformed
  | .closing .curly :: rest => exact stands_ok x rest
  | .closing .square :: _ | .opening _ :: _ | .comma :: _ | .colon :: _ | .null :: _
  | .boolean _ :: _ | .number _ :: _ | .text _ :: _ | .bad :: _ => exact stands_malformed

theorem onePass_values : OnePass Stored.values where
  nil := rfl
  stands ts us := by
    fun_cases Stored.values ts with
    | case1 ts =>
      simp only [List.cons_append, Stored.values, if_true]
      exact ((onePass_list realOf).stands ts us).bind fun xs rest =>
        stands_closing (.real xs) rest us
    | case2 ts =>
      have hname : "raw" ≠ "real" := by decide
      simp only [List.cons_append, Stored.values, if_neg hname, if_true]
      exact ((onePass_list scaledOf).stands ts us).bind fun as rest =>
        stands_closing (.raw as) rest us
    | case3 => exact stands_malformed
    | case4 => exact stands_malformed

/-- **Problems are read in one pass.** -/
theorem onePass_problem : OnePass Stored.problem := by
  have hslots : OnePassSlots problemSlots := by
    rintro slot hslot r
    simp only [problemSlots, List.mem_cons, List.not_mem_nil, or_false] at hslot
    obtain rfl | rfl | rfl := hslot
    · exact onePass_slot onePass_config r
    · exact onePass_slot onePass_values r
    · exact onePass_slot onePass_values r
  refine (OnePass.record hslots {}).bind fun r rest us => ?_
  cases hmatrix : r.matrix with
  | none =>
    simp only [hmatrix]
    exact stands_malformed
  | some matrix =>
    cases hrhs : r.rhs with
    | none =>
      simp only [hmatrix, hrhs]
      exact stands_malformed
    | some rhs =>
      simp only [hmatrix, hrhs]
      exact stands_ok (⟨r.config.getD .standard, matrix, rhs⟩ : Problem) rest

end Stored

end ScaledGauss
