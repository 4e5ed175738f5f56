import Mathlib.Data.List.Forall2
import Mathlib.Data.List.Induction
import Mathlib.Data.List.TakeWhile
import Mathlib.Data.String.Basic
import Mathlib.Logic.Function.Basic
import ScaledGauss.CommandLine.Options

/-!
# What an argument list gives

The options of a run are collected while its arguments are read. What they are in the end can be
said without reading anything, and this file says it (`ScaledGauss.CommandLine.Options.Given`) and
proves that the reading arrives there
(`ScaledGauss.CommandLine.Options.ofArguments?_eq_some_iff`). There are two layers.

* **The texts.** Flags and settings are written one after the other, a setting with its value
  attached or detached (`ScaledGauss.CommandLine.Written`). How many texts an argument takes depends
  on the argument, so this is a grammar, and the reader follows it from the front.
* **The places.** Of the arguments only two things count: which values each setting was given, in
  order, and how often each flag was. An option is determined by its own setting alone, and in
  whichever order the settings come it is the same
  (`ScaledGauss.CommandLine.Options.Collects`). The collection goes through the arguments from the
  front, so the induction that compares the two takes the last argument off.

The lists of numbers may be given in parts, which are put one after the other; anything else is
given once or not at all.
-/

namespace ScaledGauss

/-! ### Values of texts in sequence -/

/-- **A function applied along a list** has values where it has one on every element. -/
theorem mapM_eq_some_iff {α β : Type} {f : α → Option β} {l : List α} {values : List β} :
    l.mapM f = some values ↔ List.Forall₂ (fun a b => f a = some b) l values := by
  induction l generalizing values with
  | nil => simp [eq_comm]
  | cons a l ih =>
    rw [List.mapM_cons, Option.bind_eq_bind, Option.bind_eq_some_iff, List.forall₂_cons_left_iff]
    refine exists_congr fun b => ?_
    simp only [Option.bind_eq_bind, Option.bind_eq_some_iff, ih, Option.pure_def,
      Option.some.injEq, @eq_comm _ _ values]
    exact ⟨fun ⟨ha, rest, hrest, h⟩ => ⟨rest, ha, hrest, h⟩,
      fun ⟨rest, ha, hrest, h⟩ => ⟨ha, rest, hrest, h⟩⟩

/-- No separator is left in the pieces. -/
theorem notMem_of_mem_splitOn {α : Type} [DecidableEq α] {sep : α} {l piece : List α}
    (h : piece ∈ l.splitOn sep) : sep ∉ piece := by
  induction l generalizing piece with
  | nil => simp_all
  | cons a l ih =>
    rw [List.splitOn_cons_eq_if_modifyHead] at h
    split_ifs at h with ha
    · rcases List.mem_cons.mp h with rfl | h
      · exact List.not_mem_nil
      · exact ih h
    · obtain ⟨first, rest, hsplit⟩ := List.exists_cons_of_ne_nil (List.splitOn_ne_nil sep l)
      rw [hsplit, List.modifyHead_cons] at h
      rw [hsplit] at ih
      rcases List.mem_cons.mp h with rfl | h
      · have hne : sep ≠ a := fun h => ha (beq_iff_eq.mpr h.symm)
        exact List.not_mem_cons_of_ne_of_not_mem hne (ih List.mem_cons_self)
      · exact ih (List.mem_cons_of_mem _ h)

/-- A comma is a text of one character: where it matches, the match is complete. -/
theorem splitOnAux_comma (text : String) (start pos : String.Pos.Raw) (pieces : List String) :
    text.splitOnAux "," start pos 0 pieces = text.splitAux (· == ',') start pos pieces := by
  have hcomma : String.Pos.Raw.get "," 0 = ',' := rfl
  have hend : String.Pos.Raw.atEnd "," (String.Pos.Raw.next "," 0) = true := rfl
  fun_induction String.splitAux text (· == ',') start pos pieces with
  | case1 start pos pieces hatEnd => rw [String.splitOnAux.eq_def, if_pos hatEnd]
  | case2 start pos pieces hatEnd _ hmatch next ih =>
    have hget : String.Pos.Raw.get text pos = ',' := by simpa using hmatch
    have hback : (String.Pos.Raw.next text pos).unoffsetBy (String.Pos.Raw.next "," 0) = pos := by
      simp [String.Pos.Raw.next, hget, hcomma, String.Pos.Raw.unoffsetBy]
    rw [String.splitOnAux.eq_def, if_neg hatEnd, hcomma, if_pos hmatch]
    dsimp only
    rw [if_pos hend, hback]
    exact ih
  | case3 start pos pieces hatEnd _ hmatch ih =>
    rw [String.splitOnAux.eq_def, if_neg hatEnd, hcomma, if_neg hmatch]
    exact ih

theorem splitOn_comma (text : String) :
    text.splitOn "," = (text.toList.splitOn ',').map String.ofList := by
  have hcomma : ("," == "") = false := rfl
  rw [String.splitOn, hcomma, if_neg Bool.false_ne_true, splitOnAux_comma]
  exact String.splitToList_of_valid text _

namespace CommandLine

/-! ### Arguments as they are written -/

/-- The name of a flag. -/
def Flag.name : Flag → String
  | .raw => "--raw"
  | .showSteps => "--show-steps"
  | .json => "--json"

/-- The name of a setting. -/
def Setting.name : Setting → String
  | .input => "--input"
  | .matrix => "--matrix"
  | .rhs => "--rhs"
  | .fracBits => "--frac-bits"
  | .rounding => "--rounding"
  | .overflow => "--overflow"

/-- **An argument as it is written**: a flag by its name, a setting with its value attached by an
equality sign or as the next text. A detached value that looks like an argument is one, except
after the two lists of numbers. -/
inductive Argument.Written : Argument → List String → Prop
  /-- A flag. -/
  | flag (flag : Flag) : Written (.flag flag) [flag.name]
  /-- A setting with its value attached. -/
  | attached (setting : Setting) (value : String) :
    Written (.setting setting value) [setting.name ++ "=" ++ value]
  /-- A setting before its value. -/
  | detached (setting : Setting) {value : String} :
    setting.allowsHyphen ∨ ¬looksLikeArgument value →
      Written (.setting setting value) [setting.name, value]

/-- **Arguments as they are written**, one after the other, with two hyphens at the end or
not. -/
inductive Written : List Argument → List String → Prop
  /-- No argument. -/
  | nil : Written [] []
  /-- Two hyphens at the end. -/
  | hyphens : Written [] ["--"]
  /-- An argument before others. -/
  | cons {a : Argument} {as : List Argument} {texts rest : List String} :
    a.Written texts → Written as rest → Written (a :: as) (texts ++ rest)

theorem Flag.ofName?_eq_some_iff {name : String} {flag : Flag} :
    ofName? name = some flag ↔ name = flag.name := by
  constructor
  · intro h
    simp only [ofName?] at h
    split_ifs at h <;> cases h <;> assumption
  · rintro rfl
    cases flag <;> rfl

theorem Setting.ofName?_eq_some_iff {name : String} {setting : Setting} :
    ofName? name = some setting ↔ name = setting.name := by
  constructor
  · intro h
    simp only [ofName?] at h
    split_ifs at h <;> cases h <;> assumption
  · rintro rfl
    cases setting <;> rfl

/-! ### Equality signs -/

section Assignments

variable {text name value : String}

theorem splitAssignment_attached (h : '=' ∉ name.toList) (value : String) :
    splitAssignment (name ++ "=" ++ value) = (name, some value) := by
  have htext : (name ++ "=" ++ value).toList = name.toList ++ '=' :: value.toList := by simp
  have hall : ∀ c ∈ name.toList, decide (c ≠ '=') = true :=
    fun c hc => decide_eq_true (ne_of_mem_of_not_mem hc h)
  rw [splitAssignment, htext, List.takeWhile_append_of_pos hall, List.dropWhile_append_of_pos hall]
  simp

theorem splitAssignment_of_notMem (h : '=' ∉ text.toList) :
    splitAssignment text = (text, none) := by
  have hall : ∀ c ∈ text.toList, decide (c ≠ '=') = true :=
    fun c hc => decide_eq_true (ne_of_mem_of_not_mem hc h)
  have htake : text.toList.takeWhile (· ≠ '=') = text.toList :=
    List.takeWhile_eq_self_iff.mpr hall
  have hdrop : text.toList.dropWhile (· ≠ '=') = [] := List.dropWhile_eq_nil_iff.mpr hall
  rw [splitAssignment, htake, hdrop]
  simp

/-- A text with an equality sign is split at the first one. -/
theorem exists_splitAssignment (h : '=' ∈ text.toList) :
    ∃ name value, text = name ++ "=" ++ value ∧ splitAssignment text = (name, some value) := by
  obtain ⟨before, after, htext, hbefore⟩ := List.eq_append_cons_of_mem h
  have hattached : text = String.ofList before ++ "=" ++ String.ofList after := by
    apply String.toList_inj.mp
    simp [htext]
  refine ⟨_, _, hattached, ?_⟩
  rw [hattached]
  exact splitAssignment_attached (by simpa using hbefore) _

theorem eq_of_splitAssignment_some (h : splitAssignment text = (name, some value)) :
    text = name ++ "=" ++ value := by
  by_cases hmem : '=' ∈ text.toList
  · obtain ⟨name', value', htext, hsplit⟩ := exists_splitAssignment hmem
    cases hsplit.symm.trans h
    exact htext
  · cases (splitAssignment_of_notMem hmem).symm.trans h

theorem eq_of_splitAssignment_none (h : splitAssignment text = (name, none)) : text = name := by
  by_cases hmem : '=' ∈ text.toList
  · obtain ⟨name', value', -, hsplit⟩ := exists_splitAssignment hmem
    cases hsplit.symm.trans h
  · cases (splitAssignment_of_notMem hmem).symm.trans h
    rfl

theorem Flag.equals_notMem_name (flag : Flag) : '=' ∉ flag.name.toList := by
  cases flag <;> decide

theorem Setting.equals_notMem_name (setting : Setting) : '=' ∉ setting.name.toList := by
  cases setting <;> decide

end Assignments

/-- **Texts are read as the arguments that they are written for.** -/
theorem arguments?_eq_some_iff {texts : List String} {as : List Argument} :
    arguments? texts = some as ↔ Written as texts := by
  constructor
  · intro h
    fun_induction arguments? texts generalizing as with
    | case1 =>
      cases h
      exact .nil
    | case2 =>
      cases h
      exact .hyphens
    | case3 text rest _ name value hsplit setting hname ih =>
      obtain ⟨as, hrest, rfl⟩ := Option.map_eq_some_iff.mp h
      obtain rfl := Setting.ofName?_eq_some_iff.mp hname
      obtain rfl := eq_of_splitAssignment_some hsplit
      exact .cons (.attached setting value) (ih hrest)
    | case5 text name hsplit flag rest hname _ ih =>
      obtain ⟨as, hrest, rfl⟩ := Option.map_eq_some_iff.mp h
      obtain rfl := Flag.ofName?_eq_some_iff.mp hname
      obtain rfl := eq_of_splitAssignment_none hsplit
      exact .cons (.flag flag) (ih hrest)
    | case6 text name hsplit setting value rest hname _ hallowed _ ih =>
      obtain ⟨as, hrest, rfl⟩ := Option.map_eq_some_iff.mp h
      obtain rfl := Setting.ofName?_eq_some_iff.mp hname
      obtain rfl := eq_of_splitAssignment_none hsplit
      exact .cons (.detached setting hallowed) (ih hrest)
    | case4 | case7 | case8 => cases h
  · intro h
    induction h with
    | nil => rfl
    | hyphens => rfl
    | cons ha _ ih =>
      cases ha with
      | flag flag =>
        rw [List.singleton_append, arguments?, splitAssignment_of_notMem flag.equals_notMem_name]
        · simp only [Flag.ofName?_eq_some_iff.mpr rfl, ih, Option.map_some]
        · cases flag <;> exact nofun
      | attached setting value =>
        rw [List.singleton_append, arguments?, splitAssignment_attached setting.equals_notMem_name]
        · simp only [Setting.ofName?_eq_some_iff.mpr rfl, ih, Option.map_some]
        · intro htext
          -- there is an equality sign in the text
          have hmem : '=' ∈ (setting.name ++ "=" ++ value).toList := by simp
          rw [htext] at hmem
          exact absurd hmem (by decide)
      | detached setting hallowed =>
        have hflag : Flag.ofName? setting.name = none := by cases setting <;> rfl
        rw [List.cons_append, List.singleton_append, arguments?,
          splitAssignment_of_notMem setting.equals_notMem_name]
        · simp only [hflag, Setting.ofName?_eq_some_iff.mpr rfl, ih, Option.map_some,
            if_pos hallowed]
        · exact fun _ => nofun

/-! ### What a place holds -/

section Places

variable {α : Type} {read : String → Option α} {values : List String} {value : String}

/-- **Numbers as they are written**: texts without commas, with commas between them, each the
literal of its number. -/
def AreNumbers (value : String) (xs : List Binary64) : Prop :=
  ∃ literals : List String, literals ≠ [] ∧ (∀ literal ∈ literals, ',' ∉ literal.toList) ∧
    value = ",".intercalate literals ∧
    List.Forall₂ (fun literal x => Binary64.ofLiteral? literal = some x) literals xs

/-- **A place that is filled once** or not at all, by what is read from its value. -/
def Holds (read : String → Option α) (values : List String) (place : Option α) : Prop :=
  List.Forall₂ (fun value a => read value = some a) values place.toList

/-- **A place that is filled in parts**, which are put one after the other. -/
def HoldsParts (values : List String) (xs : List Binary64) : Prop :=
  ∃ parts, List.Forall₂ AreNumbers values parts ∧ parts.flatten = xs

theorem numbers?_eq_some_iff {xs : List Binary64} :
    numbers? value = some xs ↔ AreNumbers value xs := by
  rw [numbers?, splitOn_comma, mapM_eq_some_iff]
  constructor
  · intro h
    refine ⟨_, ?_, ?_, ?_, h⟩
    · simp [List.splitOn_ne_nil]
    · intro literal hliteral
      obtain ⟨piece, hpiece, rfl⟩ := List.mem_map.mp hliteral
      rw [String.toList_ofList]
      exact notMem_of_mem_splitOn hpiece
    · apply String.toList_inj.mp
      have hpieces : ((value.toList.splitOn ',').map String.ofList).map String.toList =
          value.toList.splitOn ',' := by
        simp
      rw [String.toList_intercalate, hpieces]
      exact (List.intercalate_splitOn ',').symm
  · rintro ⟨literals, hne, hcomma, rfl, h⟩
    have hpieces : (",".intercalate literals).toList.splitOn ',' =
        literals.map String.toList := by
      rw [String.toList_intercalate]
      exact List.splitOn_intercalate ',' (by simpa using hcomma) (by simpa using hne)
    rw [hpieces]
    simpa using h

/-- One literal is one number. -/
theorem areNumbers_singleton {literal : String} {x : Binary64} (hcomma : ',' ∉ literal.toList)
    (h : Binary64.ofLiteral? literal = some x) : AreNumbers literal [x] :=
  ⟨[literal], by simp, by simpa using hcomma, by simp, .cons h .nil⟩

theorem vacant_eq_some_iff {free found place : Option α} :
    vacant free found = some place ↔ free = none ∧ ∃ a, found = some a ∧ place = some a := by
  cases free <;> cases found <;> simp [vacant, eq_comm]

theorem raise_eq_some_iff {free place : Bool} :
    raise free = some place ↔ free = false ∧ place = true := by
  cases free <;> simp [raise, eq_comm]

theorem holds_nil_iff {place : Option α} : Holds read [] place ↔ place = none := by
  rw [Holds, List.forall₂_nil_left_iff, Option.toList_eq_nil_iff]

theorem holdsParts_nil_iff {xs : List Binary64} : HoldsParts [] xs ↔ xs = [] := by
  simp [HoldsParts, eq_comm]

/-- One value more fills a place that was free. -/
theorem holds_concat_iff {place : Option α} :
    Holds read (values ++ [value]) place ↔
      ∃ free, Holds read values free ∧ vacant free (read value) = some place := by
  simp only [vacant_eq_some_iff]
  constructor
  · intro h
    have hlength := h.length_eq
    cases place with
    | none => simp at hlength
    | some a =>
      obtain rfl : values = [] := by simpa using hlength
      obtain ⟨ha, -⟩ := List.forall₂_cons.mp h
      exact ⟨none, .nil, rfl, a, ha, rfl⟩
  · rintro ⟨_, h, rfl, a, ha, rfl⟩
    obtain rfl := List.forall₂_nil_right_iff.mp h
    exact .cons ha .nil

theorem holdsParts_iff {xs : List Binary64} :
    HoldsParts values xs ↔ ∃ parts, values.mapM numbers? = some parts ∧ parts.flatten = xs := by
  have hread : AreNumbers = fun value xs => numbers? value = some xs :=
    funext₂ fun _ _ => propext numbers?_eq_some_iff.symm
  simp only [HoldsParts, hread, mapM_eq_some_iff]

/-- One value more is one part more. -/
theorem holdsParts_concat_iff {xs : List Binary64} :
    HoldsParts (values ++ [value]) xs ↔
      ∃ ys, HoldsParts values ys ∧ ∃ zs, numbers? value = some zs ∧ ys ++ zs = xs := by
  simp only [holdsParts_iff]
  constructor
  · rintro ⟨parts, hparts, rfl⟩
    simp only [List.mapM_append, List.mapM_cons, List.mapM_nil, Option.bind_eq_bind,
      Option.bind_eq_some_iff, Option.pure_def, Option.some.injEq] at hparts
    obtain ⟨before, hbefore, last, ⟨zs, hzs, _, rfl, rfl⟩, rfl⟩ := hparts
    exact ⟨_, ⟨before, hbefore, rfl⟩, zs, hzs, by simp⟩
  · rintro ⟨_, ⟨parts, hparts, rfl⟩, zs, hzs, rfl⟩
    exact ⟨parts ++ [zs], by simp [List.mapM_append, hparts, hzs], by simp⟩

/-- A flag given once more was not given. -/
theorem succ_eq_toNat_iff {n : Nat} {place : Bool} :
    n + 1 = place.toNat ↔ ∃ free : Bool, n = free.toNat ∧ raise free = some place := by
  cases place <;> simp [raise_eq_some_iff]

end Places

/-! ### The options -/

/-- The values that arguments give to a setting, in order. -/
def valuesOf (as : List Argument) (setting : Setting) : List String :=
  as.filterMap fun a => match a with
    | .flag _ => none
    | .setting s value => if s = setting then some value else none

/-- How often a flag is among arguments. -/
def countOf (as : List Argument) (flag : Flag) : Nat := as.count (.flag flag)

theorem valuesOf_concat_flag (as : List Argument) (flag : Flag) :
    valuesOf (as ++ [.flag flag]) = valuesOf as := by
  funext setting
  simp [valuesOf]

theorem valuesOf_concat_setting (as : List Argument) (setting : Setting) (value : String) :
    valuesOf (as ++ [.setting setting value]) =
      Function.update (valuesOf as) setting (valuesOf as setting ++ [value]) := by
  funext s
  by_cases hs : s = setting
  · subst hs
    simp [valuesOf]
  · simp [valuesOf, hs, Ne.symm hs]

theorem countOf_concat_flag (as : List Argument) (flag : Flag) :
    countOf (as ++ [.flag flag]) =
      Function.update (countOf as) flag (countOf as flag + 1) := by
  funext f
  by_cases hf : f = flag
  · subst hf
    simp [countOf]
  · simp [countOf, hf, Ne.symm hf]

theorem countOf_concat_setting (as : List Argument) (setting : Setting) (value : String) :
    countOf (as ++ [.setting setting value]) = countOf as := by
  funext flag
  simp [countOf]

/-- A path is any text but the empty one. -/
def path? (value : String) : Option String := if value = "" then none else some value

namespace Options

/-- **The options that values and flags amount to**: each option is determined by its own setting
or its own flag. -/
structure Collects (o : Options) (values : Setting → List String) (count : Flag → Nat) : Prop where
  input : Holds path? (values .input) o.input
  matrix : HoldsParts (values .matrix) o.matrix
  rhs : HoldsParts (values .rhs) o.rhs
  raw : count .raw = o.raw.toNat
  fracBits : Holds natural? (values .fracBits) o.fracBits
  rounding : Holds Rounding.ofName? (values .rounding) o.rounding
  overflow : Holds Overflow.ofName? (values .overflow) o.overflow
  showSteps : count .showSteps = o.showSteps.toNat
  json : count .json = o.json.toNat

/-- **The options that an argument list gives.** A file and numbers exclude each other. -/
structure Given (o : Options) (texts : List String) : Prop where
  /-- The texts are arguments, and the options are what these amount to. -/
  collects : ∃ as, Written as texts ∧ o.Collects (valuesOf as) (countOf as)
  /-- There is no file, or there are no numbers. -/
  consistent : o.input = none ∨ o.matrix = [] ∧ o.rhs = []

variable {o : Options} {values : Setting → List String} {count : Flag → Nat}

/-- **One flag more.** -/
theorem collects_flag_iff (flag : Flag) :
    o.Collects values (Function.update count flag (count flag + 1)) ↔
      ∃ before : Options, before.Collects values count ∧ before.add (.flag flag) = some o := by
  constructor
  · intro h
    cases flag with
    | raw =>
      obtain ⟨free, hfree, hraise⟩ := succ_eq_toNat_iff.mp h.raw
      exact ⟨{ o with raw := free }, { h with raw := hfree }, by simp [add, hraise]⟩
    | showSteps =>
      obtain ⟨free, hfree, hraise⟩ := succ_eq_toNat_iff.mp h.showSteps
      exact ⟨{ o with showSteps := free }, { h with showSteps := hfree }, by simp [add, hraise]⟩
    | json =>
      obtain ⟨free, hfree, hraise⟩ := succ_eq_toNat_iff.mp h.json
      exact ⟨{ o with json := free }, { h with json := hfree }, by simp [add, hraise]⟩
  · rintro ⟨before, h, hadd⟩
    cases flag <;> obtain ⟨place, hraise, hadd⟩ := Option.bind_eq_some_iff.mp hadd <;> cases hadd
    · exact { h with raw := succ_eq_toNat_iff.mpr ⟨_, h.raw, hraise⟩ }
    · exact { h with showSteps := succ_eq_toNat_iff.mpr ⟨_, h.showSteps, hraise⟩ }
    · exact { h with json := succ_eq_toNat_iff.mpr ⟨_, h.json, hraise⟩ }

/-- **One setting more.** -/
theorem collects_setting_iff (setting : Setting) (value : String) :
    o.Collects (Function.update values setting (values setting ++ [value])) count ↔
      ∃ before : Options, before.Collects values count ∧
        before.add (.setting setting value) = some o := by
  constructor
  · intro h
    cases setting with
    | input =>
      obtain ⟨free, hfree, hvacant⟩ := holds_concat_iff.mp h.input
      rw [path?] at hvacant
      exact ⟨{ o with input := free }, { h with input := hfree }, by simp [add, hvacant]⟩
    | matrix =>
      obtain ⟨xs, hxs, zs, hzs, happend⟩ := holdsParts_concat_iff.mp h.matrix
      exact ⟨{ o with matrix := xs }, { h with matrix := hxs }, by simp [add, hzs, happend]⟩
    | rhs =>
      obtain ⟨xs, hxs, zs, hzs, happend⟩ := holdsParts_concat_iff.mp h.rhs
      exact ⟨{ o with rhs := xs }, { h with rhs := hxs }, by simp [add, hzs, happend]⟩
    | fracBits =>
      obtain ⟨free, hfree, hvacant⟩ := holds_concat_iff.mp h.fracBits
      exact ⟨{ o with fracBits := free }, { h with fracBits := hfree }, by simp [add, hvacant]⟩
    | rounding =>
      obtain ⟨free, hfree, hvacant⟩ := holds_concat_iff.mp h.rounding
      exact ⟨{ o with rounding := free }, { h with rounding := hfree }, by simp [add, hvacant]⟩
    | overflow =>
      obtain ⟨free, hfree, hvacant⟩ := holds_concat_iff.mp h.overflow
      exact ⟨{ o with overflow := free }, { h with overflow := hfree }, by simp [add, hvacant]⟩
  · rintro ⟨before, h, hadd⟩
    cases setting <;> obtain ⟨place, hread, hadd⟩ := Option.bind_eq_some_iff.mp hadd <;> cases hadd
    · exact { h with input := holds_concat_iff.mpr ⟨_, h.input, hread⟩ }
    · exact { h with matrix := holdsParts_concat_iff.mpr ⟨_, h.matrix, _, hread, rfl⟩ }
    · exact { h with rhs := holdsParts_concat_iff.mpr ⟨_, h.rhs, _, hread, rfl⟩ }
    · exact { h with fracBits := holds_concat_iff.mpr ⟨_, h.fracBits, hread⟩ }
    · exact { h with rounding := holds_concat_iff.mpr ⟨_, h.rounding, hread⟩ }
    · exact { h with overflow := holds_concat_iff.mpr ⟨_, h.overflow, hread⟩ }

/-- Without arguments every option has its default. -/
theorem collects_nil_iff : o.Collects (valuesOf []) (countOf []) ↔ {} = o := by
  constructor
  · rintro ⟨hinput, hmatrix, hrhs, hraw, hbits, hrounding, hoverflow, hsteps, hjson⟩
    cases o
    simp_all [valuesOf, countOf, holds_nil_iff, holdsParts_nil_iff, eq_comm]
  · rintro rfl
    constructor <;> simp [valuesOf, countOf, holds_nil_iff, holdsParts_nil_iff]

/-- **Options are collected** from arguments, one after the other. -/
theorem foldlM_add_eq_some_iff {as : List Argument} :
    as.foldlM add {} = some o ↔ o.Collects (valuesOf as) (countOf as) := by
  induction as using List.reverseRecOn generalizing o with
  | nil => rw [collects_nil_iff, List.foldlM_nil, Option.pure_def, Option.some.injEq]
  | append_singleton as a ih =>
    simp only [List.foldlM_append, List.foldlM_cons, List.foldlM_nil, bind_pure,
      Option.bind_eq_bind, Option.bind_eq_some_iff, ih]
    cases a with
    | flag flag => rw [valuesOf_concat_flag, countOf_concat_flag, collects_flag_iff]
    | setting setting value =>
      rw [valuesOf_concat_setting, countOf_concat_setting, collects_setting_iff]

/-- **The options of an argument list** are those that it gives. -/
theorem ofArguments?_eq_some_iff {texts : List String} :
    ofArguments? texts = some o ↔ o.Given texts := by
  simp only [ofArguments?, Option.bind_eq_bind, Option.bind_eq_some_iff, arguments?_eq_some_iff,
    foldlM_add_eq_some_iff]
  constructor
  · rintro ⟨as, has, o', ho', h⟩
    split_ifs at h with hc
    cases h
    exact ⟨⟨as, has, ho'⟩, by simpa [consistent] using hc⟩
  · rintro ⟨⟨as, has, ho⟩, hc⟩
    exact ⟨as, has, o, ho, if_pos (by simpa [consistent] using hc)⟩

end Options

end CommandLine

end ScaledGauss
