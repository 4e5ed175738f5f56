import ScaledGauss.Proofs.RoundTrip
import ScaledGauss.Proofs.Text.Values

/-!
# Records as they may be written

A record is written as an object or as an array. In an object the members come in any order,
members that are no fields come between them, and a field may be missing; an array holds the
first few fields in their order. Here this is said of texts (`ScaledGauss.Json.IsRecord`), with the
names of the fields that a text gives, in their order of appearance.

A reader goes through such a text once. What it has made of a record after some members depends
on nothing but which fields these were, so the record in the making is a function of their names,
and the slot of a field **serves** it (`ScaledGauss.Json.Serves`) if it takes this function
from one list of names to the next. Member by member the reader then follows the names
(`ScaledGauss.Json.Leading.reads`), and this gives what it makes of a whole record, of a record up
to some field, and of a record in which a field is repeated.

## Main definitions

– `ScaledGauss.Json.Field`, `ScaledGauss.Json.IsRecord`: records as they are written;
– `ScaledGauss.Json.IsBefore`: a record up to where the value of a field begins;
– `ScaledGauss.Json.Repeats`: an object up to where the name of a field is repeated.

## Main results

– `ScaledGauss.Json.IsRecord.reads`: a record is read, whatever the order of its members;
– `ScaledGauss.Json.IsBefore.fails`: where a field is refused, its record is;
– `ScaledGauss.Json.Repeats.fails`: a repeated field is refused.
-/

namespace ScaledGauss

namespace Json

/-! ### Texts of records -/

/-- **A field of a record** as it is written. -/
structure Field where
  /-- The name of the field. -/
  name : String
  /-- The texts of its value. -/
  IsText : List Char → Prop
  /-- Whether its value is the one it has when it is left out. -/
  Standard : Prop

section Texts

variable (fields : List Field)

/-- **A member of an object**, without the blanks around it, and the name of the field that it
gives, if it gives one. -/
inductive IsMember : List Char → List String → Prop
  /-- A field. -/
  | field {f : Field} {k w₁ w₂ v : List Char} :
    f ∈ fields → IsName k f.name → Blanks w₁ → Blanks w₂ → f.IsText v →
      IsMember (k ++ w₁ ++ ':' :: (w₂ ++ v)) [f.name]
  /-- A member that is no field may have any value. -/
  | other {name : String} {k w₁ w₂ v : List Char} :
    (∀ f ∈ fields, f.name ≠ name) → IsName k name → Blanks w₁ → Blanks w₂ → IsValue v →
      IsMember (k ++ w₁ ++ ':' :: (w₂ ++ v)) []

/-- **Members, each with a comma after it**, and the names of the fields they give. -/
inductive Leading : List Char → List String → Prop
  | nil : Leading [] []
  | cons {w m w' t : List Char} {ns ns' : List String} :
    Blanks w → IsMember fields m ns → Blanks w' → Leading t ns' →
      Leading (w ++ m ++ w' ++ ',' :: t) (ns ++ ns')

/-- **A record as an object**, with the names of the fields that it gives. -/
inductive IsObject : List Char → List String → Prop
  | nil {w : List Char} : Blanks w → IsObject ('\x7b' :: (w ++ ['\x7d'])) []
  | members {t w m w' : List Char} {ns ns' : List String} :
    Leading fields t ns → Blanks w → IsMember fields m ns' → Blanks w' →
      IsObject ('\x7b' :: (t ++ (w ++ m ++ w') ++ ['\x7d'])) (ns ++ ns')

/-- **The values of some fields in their order**, each with a comma after it. -/
inductive InOrder : List Field → List Char → Prop
  | nil : InOrder [] []
  | cons {f : Field} {fs : List Field} {w v w' t : List Char} :
    Blanks w → f.IsText v → Blanks w' → InOrder fs t →
      InOrder (f :: fs) (w ++ v ++ w' ++ ',' :: t)

/-- **A record as an array**: its first few fields. -/
inductive IsArray : List Char → List String → Prop
  | nil {w : List Char} : Blanks w → IsArray ('[' :: (w ++ [']'])) []
  | values {before after : List Field} {f : Field} {t w v w' : List Char} :
    fields = before ++ f :: after → InOrder before t → Blanks w → f.IsText v → Blanks w' →
      IsArray ('[' :: (t ++ (w ++ v ++ w') ++ [']'])) ((before ++ [f]).map Field.name)

/-- **A record**, in one of its two forms. -/
def IsRecord (t : List Char) (ns : List String) : Prop := IsObject fields t ns ∨ IsArray fields t ns

/-- **A text presents a record**: no field is given twice, and those left out have their standard
values. -/
def PresentsRecord (t : List Char) : Prop :=
  ∃ ns, IsRecord fields t ns ∧ ns.Nodup ∧ ∀ f ∈ fields, f.name ∈ ns ∨ f.Standard

/-- **A record up to where the value of a field begins.** -/
inductive IsBefore (name : String) : List Char → Prop
  /-- In an object the field must not have been given before. -/
  | object {t w k w₁ w₂ : List Char} {ns : List String} :
    Leading fields t ns → ns.Nodup → name ∉ ns → Blanks w → IsName k name → Blanks w₁ → Blanks w₂ →
      IsBefore name ('\x7b' :: (t ++ (w ++ k ++ w₁ ++ ':' :: w₂)))
  | array {before after : List Field} {f : Field} {t w : List Char} :
    fields = before ++ f :: after → f.name = name → InOrder before t → Blanks w →
      IsBefore name ('[' :: (t ++ w))

/-- **An object up to where the name of a field has been repeated.** -/
inductive Repeats : List Char → Prop
  | mk {t w k : List Char} {ns : List String} {name : String} :
    Leading fields t ns → ns.Nodup → name ∈ ns → Blanks w → IsName k name →
      Repeats ('\x7b' :: (t ++ (w ++ k)))

end Texts

/-- **An object with a single member** of a given name. -/
inductive IsSingle (name : String) (IsText : List Char → Prop) : List Char → Prop
  | mk {w k w₁ w₂ v w' : List Char} :
    Blanks w → IsName k name → Blanks w₁ → Blanks w₂ → IsText v → Blanks w' →
      IsSingle name IsText ('\x7b' :: (w ++ (k ++ w₁ ++ ':' :: (w₂ ++ v)) ++ w' ++ ['\x7d']))

/-- The tokens of an object with a single member. -/
theorem IsSingle.punctuates {name : String} {IsText : List Char → Prop} {t : List Char}
    (h : IsSingle name IsText t) :
    ∃ v, IsText v ∧ ∀ ts, Spells v ts → Punctuates t
      (.opening .curly :: (.text (some name) :: .colon :: ts ++ [.closing .curly])) := by
  obtain ⟨hw, hk, h₁, h₂, hv, hw'⟩ := h
  exact ⟨_, hv, fun ts hts => punctuates_enclosed punctuates_curly
    ((spells_member (punctuates_name hk) h₁ h₂ hts).blanks hw hw')⟩

/-! ### Reading off a text -/

/-- Tokens that begin with the beginning of a value or a name: no closing bracket comes first. -/
def Begins : List Token → Prop
  | [] => False
  | .closing _ :: _ => False
  | _ => True

theorem Begins.append {ts : List Token} (h : Begins ts) (us : List Token) : Begins (ts ++ us) := by
  cases ts with
  | nil => exact h.elim
  | cons t ts => cases t <;> exact h

/-- Nothing, or the beginning of something, before a beginning. -/
theorem Begins.after {ts us : List Token} (hts : ts = [] ∨ Begins ts) (hus : Begins us) :
    Begins (ts ++ us) := by
  obtain rfl | hts := hts
  · exact hus
  · exact hts.append us

section Reading

variable {α β : Type} {read : Reader α} {text : List Char} {a : α} {e : ReadError}

/-- **A text is read as a value**, whatever tokens it has. -/
def ReadsText (read : Reader α) (text : List Char) (a : α) : Prop :=
  ∃ ts, Spells text ts ∧ Begins ts ∧ Reads read ts a

/-- **A text is read as a value, and ends by itself.** -/
def ClosesText (read : Reader α) (text : List Char) (a : α) : Prop :=
  ∃ ts, Cuts text ts ∧ Begins ts ∧ Reads read ts a

/-- **A text is refused**, whatever follows it. -/
def FailsText (read : Reader α) (text : List Char) (e : ReadError) : Prop :=
  ∃ ts, Cuts text ts ∧ Begins ts ∧ ∀ rest, read (ts ++ rest) = .error e

theorem ClosesText.readsText (h : ClosesText read text a) : ReadsText read text a := by
  obtain ⟨ts, hcuts, hbegins, hreads⟩ := h
  exact ⟨ts, fun rest _ => hcuts rest, hbegins, hreads⟩

variable {next : α × List Token → Except ReadError (β × List Token)}

/-- What is read may be turned into something else. -/
theorem ClosesText.bind (h : ClosesText read text a) {b : β}
    (hnext : ∀ rest, next (a, rest) = .ok (b, rest)) :
    ClosesText (fun ts => read ts >>= next) text b := by
  obtain ⟨ts, hcuts, hbegins, hreads⟩ := h
  refine ⟨ts, hcuts, hbegins, fun rest => ?_⟩
  change (read (ts ++ rest)).bind next = _
  rw [hreads rest]
  exact hnext rest

/-- What is read may be refused where it ends. -/
theorem ClosesText.fails (h : ClosesText read text a) (hnext : ∀ rest, next (a, rest) = .error e) :
    FailsText (fun ts => read ts >>= next) text e := by
  obtain ⟨ts, hcuts, hbegins, hreads⟩ := h
  refine ⟨ts, hcuts, hbegins, fun rest => ?_⟩
  change (read (ts ++ rest)).bind next = _
  rw [hreads rest]
  exact hnext rest

/-- What is refused is not turned into anything. -/
theorem FailsText.bind (h : FailsText read text e) :
    FailsText (fun ts => read ts >>= next) text e := by
  obtain ⟨ts, hcuts, hbegins, hfails⟩ := h
  refine ⟨ts, hcuts, hbegins, fun rest => ?_⟩
  change (read (ts ++ rest)).bind next = _
  rw [hfails rest]
  rfl

/-- **A whole text is read**, with blanks around its value. -/
theorem ClosesText.decode (h : ClosesText read text a) {w w' : List Char} (hw : Blanks w)
    (hw' : Blanks w') {whole : String} (hwhole : whole.toList = w ++ text ++ w') :
    decode read whole = .ok a := by
  obtain ⟨ts, hcuts, -, hreads⟩ := h
  have htokens : tokens whole = ts := by
    have hcut := (hw.cuts.append hcuts).append hw'.cuts []
    rw [List.append_nil] at hcut
    rw [tokens, hwhole, hcut]
    simp [Lexer.run, Lexer.finish]
  exact hreads.decode htokens

/-- **A whole text is refused** once a beginning of it is. -/
theorem FailsText.decode (h : FailsText read text e) {w rest : List Char} (hw : Blanks w)
    {whole : String} (hwhole : whole.toList = w ++ text ++ rest) :
    decode read whole = .error e := by
  obtain ⟨ts, hcuts, -, hfails⟩ := h
  have htokens : tokens whole = ts ++ Lexer.between.run rest := by
    rw [tokens, hwhole, hw.cuts.append hcuts, List.nil_append]
  rw [Json.decode, htokens, hfails]
  rfl

end Reading

/-! ### Slots -/

section Slots

variable {ρ : Type} {state : List String → ρ} {slot : Slot ρ} {slots : List (Slot ρ)} {f : Field}
  {fields : List Field}

/-- **A slot serves a field**: as long as the field has not been given it is read, and then it has
been given. -/
structure Serves (state : List String → ρ) (slot : Slot ρ) (f : Field) : Prop where
  name : slot.name = f.name
  reads {v : List Char} {given : List String} : f.IsText v → f.name ∉ given →
    ReadsText (slot.read (state given)) v (state (given ++ [f.name]))
  refuses {given : List String} (ts : List Token) : f.name ∈ given →
    slot.read (state given) ts = .error .malformed

/-- **Slots serve fields**, each its own, in the same order. -/
structure Served (state : List String → ρ) (slots : List (Slot ρ)) (fields : List Field) :
    Prop where
  serves : List.Forall₂ (Serves state) slots fields
  distinct : (fields.map Field.name).Nodup

/-- A slot that holds its field at a place of the record serves it. -/
theorem serves_of {α : Type} {name : String} {get : ρ → Option α} {put : ρ → α → ρ}
    {read : Reader α} {IsText : List Char → Prop} {Standard : Prop} {a : α}
    (hget : ∀ given, get (state given) = if name ∈ given then some a else none)
    (hput : ∀ given, put (state given) a = state (given ++ [name]))
    (hread : ∀ v, IsText v → ReadsText read v a) :
    Serves state (.of name get put read) ⟨name, IsText, Standard⟩ where
  name := rfl
  reads {v given} hv hname := by
    obtain ⟨ts, hspells, hbegins, hreads⟩ := hread v hv
    refine ⟨ts, hspells, hbegins, fun rest => ?_⟩
    simp [Slot.of, hget, if_neg hname, hreads rest, hput, bind, Except.bind, pure, Except.pure]
  refuses {given} ts hname := by
    simp [Slot.of, hget, if_pos hname]

/-- A slot that holds its field at a place of the record refuses what its reader refuses. -/
theorem FailsText.atSlot {α : Type} {name : String} {get : ρ → Option α} {put : ρ → α → ρ}
    {read : Reader α} {record : ρ} (hget : get record = none) {text : List Char} {e : ReadError}
    (h : FailsText read text e) : FailsText ((Slot.of name get put read).read record) text e := by
  obtain ⟨ts, hcuts, hbegins, hfails⟩ := h
  refine ⟨ts, hcuts, hbegins, fun rest => ?_⟩
  simp only [Slot.of, hget, hfails rest]
  rfl

/-- A name given last was not given before. -/
theorem notMem_of_nodup_concat {given : List String} {name : String}
    (h : (given ++ [name]).Nodup) : name ∉ given :=
  fun hmem => (List.nodup_append.1 h).2.2 _ hmem _ (List.mem_singleton_self _) rfl

/-- The slot of a field is found by its name. -/
theorem Served.find (h : Served state slots fields) (hf : f ∈ fields) :
    ∃ slot, slots.find? (·.name = f.name) = some slot ∧ Serves state slot f := by
  obtain ⟨hserves, hdistinct⟩ := h
  induction hserves with
  | nil => cases hf
  | @cons slot g slots fields hfirst _ ih =>
    obtain ⟨hg, hrest⟩ := List.nodup_cons.1 hdistinct
    obtain rfl | hf := List.mem_cons.1 hf
    · exact ⟨slot, by simp [hfirst.name], hfirst⟩
    · have hne : g.name ≠ f.name := fun he => hg (he ▸ List.mem_map_of_mem hf)
      obtain ⟨slot', hfind, hserves⟩ := ih hf hrest
      exact ⟨slot', by simpa [hfirst.name, hne] using hfind, hserves⟩

/-- No slot has the name of a member that is no field. -/
theorem Served.find_other (h : Served state slots fields) {name : String}
    (hname : ∀ f ∈ fields, f.name ≠ name) : slots.find? (·.name = name) = none := by
  obtain ⟨hserves, -⟩ := h
  induction hserves with
  | nil => rfl
  | @cons slot g slots fields hfirst _ ih =>
    have hne : g.name ≠ name := hname g (List.mem_cons_self ..)
    have hrest := ih fun f hf => hname f (List.mem_cons_of_mem _ hf)
    simpa [hfirst.name, hne] using hrest

/-! ### Objects -/

/-- **A member is read**: it gives what it names, and nothing else changes. -/
theorem IsMember.reads (h : Served state slots fields) {m : List Char} {ns : List String}
    (hm : IsMember fields m ns) {given : List String} (hgiven : (given ++ ns).Nodup) :
    ∃ name ts, Spells m (.text (some name) :: .colon :: ts) ∧
      Reads (readMember slots name (state given)) ts (state (given ++ ns)) := by
  cases hm with
  | @field f k w₁ w₂ v hf hk h₁ h₂ hv =>
    obtain ⟨slot, hfind, hserves⟩ := h.find hf
    obtain ⟨ts, hspells, -, hreads⟩ := hserves.reads hv (notMem_of_nodup_concat hgiven)
    refine ⟨f.name, ts, spells_member (punctuates_name hk) h₁ h₂ hspells, fun rest => ?_⟩
    simp only [readMember, hfind]
    exact hreads rest
  | @other name k w₁ w₂ v hname hk h₁ h₂ hv =>
    obtain ⟨ts, hspells, hskips⟩ := hv.skips
    refine ⟨name, ts, spells_member (punctuates_name hk) h₁ h₂ hspells, fun rest => ?_⟩
    simp [readMember, h.find_other hname, hskips rest, bind, Except.bind, pure, Except.pure]

/-- **Members with commas after them are read one after the other.** Each takes a round, and has
a token to pay for it. -/
theorem Leading.reads (h : Served state slots fields) {t : List Char} {ns : List String}
    (ht : Leading fields t ns) {given : List String} (hgiven : (given ++ ns).Nodup) :
    ∃ ts k, Cuts t ts ∧ k ≤ ts.length ∧ (ts = [] ∨ Begins ts) ∧ ∀ rounds rest,
      readMembers slots (k + rounds) (state given) (ts ++ rest) =
        readMembers slots rounds (state (given ++ ns)) rest := by
  induction ht generalizing given with
  | nil =>
    refine ⟨[], 0, cuts_nil, Nat.le_refl _, .inl rfl, fun rounds rest => ?_⟩
    rw [Nat.zero_add, List.append_nil, List.nil_append]
  | @cons w m w' t ns ns' hw hm hw' _ ih =>
    rw [← List.append_assoc] at hgiven
    obtain ⟨name, ts, hspells, hreads⟩ := hm.reads h (List.nodup_append.1 hgiven).1
    obtain ⟨us, k, hcuts, hk, -, hmembers⟩ := ih hgiven
    refine ⟨.text (some name) :: .colon :: ts ++ .comma :: us, k + 1, ?_, ?_, ?_, ?_⟩
    · simpa using ((hspells.blanks hw hw').append_cuts punctuates_comma).append hcuts
    · simp only [List.length_append, List.length_cons]
      omega
    · exact .inr trivial
    · intro rounds rest
      have hround : k + 1 + rounds = k + rounds + 1 := by omega
      rw [hround, List.append_assoc, List.cons_append, List.cons_append, readMembers, hreads,
        List.cons_append]
      simp only [bind, Except.bind]
      rw [hmembers, List.append_assoc]

/-- An object that is not closed at once is read member by member. -/
theorem readRecord_curly {empty : ρ} {ts : List Token} (h : Begins ts) :
    readRecord slots empty (.opening .curly :: ts) = readMembers slots ts.length empty ts := by
  cases ts with
  | nil => exact h.elim
  | cons t ts =>
    cases t with
    | closing kind => exact h.elim
    | _ => rfl

/-- The first members of an object, and what is read after them. There is a round left for it. -/
theorem Leading.readRecord (h : Served state slots fields) {t : List Char} {ns : List String}
    (ht : Leading fields t ns) (hns : ns.Nodup) :
    ∃ ts, Cuts t ts ∧ ∀ us, Begins us → ∃ rounds,
      Json.readRecord slots (state []) (.opening .curly :: (ts ++ us)) =
        readMembers slots (rounds + 1) (state ns) us := by
  have hgiven : ([] ++ ns).Nodup := hns
  obtain ⟨ts, k, hcuts, hk, hbegins, hmembers⟩ := ht.reads h hgiven
  refine ⟨ts, hcuts, fun us hus => ?_⟩
  have hpos : 0 < us.length := by
    cases us with
    | nil => exact hus.elim
    | cons u us => exact Nat.succ_pos _
  refine ⟨ts.length - k + (us.length - 1), ?_⟩
  have hrounds : (ts ++ us).length = k + (ts.length - k + (us.length - 1) + 1) := by
    rw [List.length_append]
    omega
  rw [readRecord_curly (.after hbegins hus), hrounds, hmembers, List.nil_append]

/-- **An object is read**, whatever the order of its members. -/
theorem IsObject.reads (h : Served state slots fields) {t : List Char} {ns : List String}
    (ht : IsObject fields t ns) (hns : ns.Nodup) :
    ClosesText (Json.readRecord slots (state [])) t (state ns) := by
  cases ht with
  | @nil w hw =>
    exact ⟨_, (punctuates_enclosed punctuates_curly hw.spells).cuts, trivial,
      fun rest => rfl⟩
  | @members t w m w' ns ns' hlead hw hm hw' =>
    obtain ⟨ts, hcuts, hread⟩ := hlead.readRecord h (List.nodup_append.1 hns).1
    obtain ⟨name, us, hspells, hreads⟩ := hm.reads h hns
    have htokens := punctuates_enclosed punctuates_curly
      (hcuts.append_spells (hspells.blanks hw hw'))
    refine ⟨_, htokens.cuts, trivial, fun rest => ?_⟩
    obtain ⟨rounds, hrecord⟩ :=
      hread (.text (some name) :: .colon :: (us ++ .closing .curly :: rest)) trivial
    simp only [List.cons_append, List.append_assoc, List.nil_append]
    rw [hrecord, readMembers, hreads]
    rfl

/-! ### Arrays -/

/-- An array that is not closed at once is read element by element. -/
theorem readRecord_square {empty : ρ} {ts : List Token} (h : Begins ts) :
    Json.readRecord slots empty (.opening .square :: ts) = readInOrder slots empty ts := by
  cases ts with
  | nil => exact h.elim
  | cons t ts =>
    cases t with
    | closing kind => exact h.elim
    | _ => rfl

/-- **The first few elements of an array**, each read into its own slot. -/
theorem InOrder.reads {before : List Field} {t : List Char} (ht : InOrder before t)
    {slots : List (Slot ρ)} (h : List.Forall₂ (Serves state) slots before)
    {given : List String} (hgiven : (given ++ before.map Field.name).Nodup) :
    ∃ ts, Cuts t ts ∧ (ts = [] ∨ Begins ts) ∧ ∀ after rest,
      readInOrder (slots ++ after) (state given) (ts ++ rest) =
        readInOrder after (state (given ++ before.map Field.name)) rest := by
  induction ht generalizing slots given with
  | nil =>
    cases h
    refine ⟨[], cuts_nil, .inl rfl, fun after rest => ?_⟩
    rw [List.map_nil, List.append_nil, List.nil_append, List.nil_append]
  | @cons f fs w v w' t hw hv hw' _ ih =>
    cases h with
    | @cons slot _ slots _ hfirst hrest =>
      have hstate : given ++ (f :: fs).map Field.name =
          given ++ [f.name] ++ fs.map Field.name := by simp
      rw [hstate] at hgiven
      have hname : f.name ∉ given := notMem_of_nodup_concat (List.nodup_append.1 hgiven).1
      obtain ⟨ts, hspells, hbegins, hreads⟩ := hfirst.reads hv hname
      obtain ⟨us, hcuts, -, hvalues⟩ := ih hrest hgiven
      refine ⟨ts ++ .comma :: us, ?_, .inr (hbegins.append _), fun after rest => ?_⟩
      · simpa using ((hspells.blanks hw hw').append_cuts punctuates_comma).append hcuts
      · rw [List.cons_append, readInOrder, List.append_assoc, hreads, List.cons_append]
        simp only [bind, Except.bind]
        rw [hvalues, hstate]

/-- A field is not named by those before it. -/
theorem Served.notMem_before (h : Served state slots fields) {before after : List Field}
    (hf : fields = before ++ f :: after) : f.name ∉ before.map Field.name := by
  have hall := h.distinct
  rw [hf, List.map_append, List.map_cons] at hall
  exact fun hmem => (List.nodup_append.1 hall).2.2 _ hmem _ (List.mem_cons_self ..) rfl

/-- The slots before that of a field, and those after it. -/
theorem Served.split (h : Served state slots fields) {before after : List Field}
    (hf : fields = before ++ f :: after) :
    ∃ slots₁ slot slots₂, slots = slots₁ ++ slot :: slots₂ ∧
      List.Forall₂ (Serves state) slots₁ before ∧ Serves state slot f := by
  subst hf
  have htake := List.forall₂_take_append _ _ _ h.serves
  have hdrop := List.forall₂_drop_append _ _ _ h.serves
  obtain ⟨slot, slots₂, hslot, -, heq⟩ := List.forall₂_cons_right_iff.1 hdrop
  exact ⟨_, slot, slots₂, by rw [← heq, List.take_append_drop], htake, hslot⟩

/-- The first elements of an array, and what is read after them. -/
theorem InOrder.readRecord (h : Served state slots fields) {before after : List Field}
    {t : List Char} (ht : InOrder before t) (hf : fields = before ++ f :: after) :
    ∃ ts slot slots', Cuts t ts ∧ slot ∈ slots ∧ Serves state slot f ∧ ∀ us, Begins us →
      Json.readRecord slots (state []) (.opening .square :: (ts ++ us)) =
        readInOrder (slot :: slots') (state (before.map Field.name)) us := by
  obtain ⟨slots₁, slot, slots₂, hslots, hbefore, hserves⟩ := h.split hf
  have hdistinct : ([] ++ before.map Field.name).Nodup := by
    have hall := h.distinct
    rw [hf, List.map_append] at hall
    exact (List.nodup_append.1 hall).1
  obtain ⟨ts, hcuts, hbegins, hvalues⟩ := ht.reads hbefore hdistinct
  refine ⟨ts, slot, slots₂, hcuts, by simp [hslots], hserves, fun us hus => ?_⟩
  rw [readRecord_square (.after hbegins hus), hslots, hvalues, List.nil_append]

/-- **An array is read**, however many fields it gives. -/
theorem IsArray.reads (h : Served state slots fields) {t : List Char} {ns : List String}
    (ht : IsArray fields t ns) : ClosesText (Json.readRecord slots (state [])) t (state ns) := by
  cases ht with
  | @nil w hw =>
    exact ⟨_, (punctuates_enclosed punctuates_square hw.spells).cuts, trivial,
      fun rest => rfl⟩
  | @values before after f t w v w' hf ht hw hv hw' =>
    obtain ⟨ts, slot, slots', hcuts, -, hserves, hread⟩ := ht.readRecord h hf
    obtain ⟨us, hspells, hbegins, hreads⟩ := hserves.reads hv (h.notMem_before hf)
    have htokens := punctuates_enclosed punctuates_square
      (hcuts.append_spells (hspells.blanks hw hw'))
    refine ⟨_, htokens.cuts, trivial, fun rest => ?_⟩
    have hrecord := hread (us ++ .closing .square :: rest) (hbegins.append _)
    simp only [List.cons_append, List.append_assoc, List.nil_append]
    rw [hrecord, readInOrder, hreads, List.map_append, List.map_singleton]
    rfl

/-! ### Records -/

/-- **A record is read**, in either form. -/
theorem IsRecord.reads (h : Served state slots fields) {t : List Char} {ns : List String}
    (ht : IsRecord fields t ns) (hns : ns.Nodup) :
    ClosesText (Json.readRecord slots (state [])) t (state ns) :=
  ht.elim (fun hobject => hobject.reads h hns) (fun harray => harray.reads h)

/-- The name of a member, with blanks before it. -/
theorem cuts_key {w k : List Char} {name : String} (hw : Blanks w) (hk : IsName k name) :
    Cuts (w ++ k) [.text (some name)] :=
  hw.cuts.append (punctuates_name hk).cuts

/-- **A refused field refuses its record**: if what stands where its value should begin is
refused, then nothing after it matters. -/
theorem IsBefore.fails (h : Served state slots fields) (hf : f ∈ fields) {b q : List Char}
    {e : ReadError} (hb : IsBefore fields f.name b)
    (hq : ∀ slot ∈ slots, slot.name = f.name → ∀ given, f.name ∉ given →
      FailsText (slot.read (state given)) q e) :
    FailsText (Json.readRecord slots (state [])) (b ++ q) e := by
  cases hb with
  | @object t w k w₁ w₂ ns hlead hns hname hw hk h₁ h₂ =>
    obtain ⟨slot, hfind, hserves⟩ := h.find hf
    obtain ⟨ts, hcuts, hread⟩ := hlead.readRecord h hns
    obtain ⟨us, hcuts', -, hfails⟩ :=
      hq slot (List.mem_of_find?_eq_some hfind) hserves.name ns hname
    refine ⟨.opening .curly :: (ts ++ .text (some f.name) :: .colon :: us), ?_, trivial,
      fun rest => ?_⟩
    · have hcolon : Cuts (w₁ ++ [':'] ++ w₂) [.colon] := by
        simpa using (h₁.cuts.append punctuates_colon.cuts).append h₂.cuts
      simpa using punctuates_curly.1.cuts.append
        (hcuts.append ((cuts_key hw hk).append (hcolon.append hcuts')))
    · obtain ⟨rounds, hrecord⟩ := hread (.text (some f.name) :: .colon :: (us ++ rest)) trivial
      simp only [List.cons_append, List.append_assoc]
      rw [hrecord, readMembers]
      simp only [readMember, hfind, hfails rest, bind, Except.bind]
  | @array before after g t w hg hname ht hw =>
    obtain ⟨ts, slot, slots', hcuts, hslot, hserves, hread⟩ := ht.readRecord h hg
    have hgiven : f.name ∉ before.map Field.name := hname ▸ h.notMem_before hg
    obtain ⟨us, hcuts', hbegins, hfails⟩ :=
      hq slot hslot (hserves.name.trans hname) _ hgiven
    refine ⟨.opening .square :: (ts ++ us), ?_, trivial, fun rest => ?_⟩
    · simpa using punctuates_square.1.cuts.append
        (hcuts.append (hw.cuts.append hcuts'))
    · rw [List.cons_append, List.append_assoc, hread _ (hbegins.append rest), readInOrder, hfails]
      rfl

/-- Only fields are named. -/
theorem Leading.mem {t : List Char} {ns : List String} (ht : Leading fields t ns) {name : String}
    (hname : name ∈ ns) : ∃ f ∈ fields, f.name = name := by
  induction ht with
  | nil => cases hname
  | @cons w m w' t ns ns' hw hm hw' _ ih =>
    obtain hfirst | hrest := List.mem_append.1 hname
    · cases hm with
      | field hf => exact ⟨_, hf, (List.mem_singleton.1 hfirst).symm⟩
      | other => cases hfirst
    · exact ih hrest

/-- **A repeated field is refused** as soon as it is named. -/
theorem Repeats.fails (h : Served state slots fields) {p : List Char} (hp : Repeats fields p) :
    FailsText (Json.readRecord slots (state [])) p .malformed := by
  obtain @⟨t, w, k, ns, name, hlead, hns, hname, hw, hk⟩ := hp
  obtain ⟨f, hf, rfl⟩ := hlead.mem hname
  obtain ⟨slot, hfind, hserves⟩ := h.find hf
  obtain ⟨ts, hcuts, hread⟩ := hlead.readRecord h hns
  refine ⟨.opening .curly :: (ts ++ [.text (some f.name)]), ?_, trivial, fun rest => ?_⟩
  · simpa using punctuates_curly.1.cuts.append (hcuts.append (cuts_key hw hk))
  · obtain ⟨rounds, hrecord⟩ := hread (.text (some f.name) :: rest) trivial
    rw [List.cons_append, List.append_assoc, List.singleton_append, hrecord]
    -- without a colon the member is no member, and with one its field is given already
    cases rest with
    | nil => rfl
    | cons u rest =>
      cases u with
      | colon =>
        rw [readMembers]
        simp only [readMember, hfind, hserves.refuses _ hname, bind, Except.bind]
      | _ => rfl

end Slots

end Json

end ScaledGauss
