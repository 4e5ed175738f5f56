import ScaledGauss.Decimal

/-!
# The tokens of a JSON text

A text is cut into tokens by an automaton that sees each character once, from left
to right. A character that cannot continue becomes the token
`ScaledGauss.Json.Token.bad`, after which nothing more is read; so whatever is
decided on the tokens before it is decided without looking at the fault. Because
the automaton has no memory but its state, the tokens of a text are those of any
initial part of it, followed by those that the state reached there makes of the
rest.

A string is a token whether or not its escapes name whole characters: half of a
surrogate pair is only refused where the string is read
(`ScaledGauss.Json.Token.text`).

## Main definitions

– `ScaledGauss.Json.Numeral`: a number as it is written;
– `ScaledGauss.Json.Token`: the tokens;
– `ScaledGauss.Json.Lexer`, `ScaledGauss.Json.Lexer.step`: the automaton;
– `ScaledGauss.Json.tokens`: the tokens of a text.
-/

namespace ScaledGauss

namespace Json

/-! ### Numbers -/

/-- How far a number has been read. -/
inductive Phase
  /-- Before the first digit. -/
  | start
  /-- After a leading zero. -/
  | zero
  /-- Among the digits of the whole part. -/
  | whole
  /-- After the point. -/
  | point
  /-- Among the digits of the fraction. -/
  | fraction
  /-- After the mark of an exponent. -/
  | mark
  /-- After the sign of an exponent. -/
  | sign
  /-- Among the digits of the exponent. -/
  | power
deriving DecidableEq

/-- Whether a number may end here. -/
def Phase.complete : Phase → Bool
  | .zero | .whole | .fraction | .power => true
  | .start | .point | .mark | .sign => false

/-- **A number as it is written**, as far as it has been read. -/
structure Numeral where
  /-- Whether there is a minus sign. -/
  negative : Bool := false
  /-- The digits before the exponent. -/
  digits : Nat := 0
  /-- How many of them follow the point. -/
  places : Nat := 0
  /-- Whether the exponent has a minus sign. -/
  powerNegative : Bool := false
  /-- The magnitude of the exponent. -/
  power : Nat := 0
  /-- Whether there is neither a point nor an exponent. -/
  plain : Bool := true
deriving DecidableEq

/-- The power of ten that the digits are multiplied by. -/
def Numeral.exponent (x : Numeral) : Int :=
  (if x.powerNegative then -(x.power : Int) else x.power) - x.places

/-- One digit more. -/
def Numeral.digit (x : Numeral) (d : Nat) : Phase → Option (Phase × Numeral)
  | .start => some (if d = 0 then .zero else .whole, { x with digits := d })
  | .zero => none
  | .whole => some (.whole, { x with digits := 10 * x.digits + d })
  | .point | .fraction =>
    some (.fraction, { x with digits := 10 * x.digits + d, places := x.places + 1 })
  | .mark | .sign | .power => some (.power, { x with power := 10 * x.power + d })

/-- **One character more of a number**, if it continues the number. -/
def Numeral.next (phase : Phase) (x : Numeral) (c : Char) : Option (Phase × Numeral) :=
  match digit? c with
  | some d => x.digit d phase
  | none =>
    if c = '.' then
      if phase = .zero ∨ phase = .whole then some (.point, { x with plain := false }) else none
    else if c = 'e' ∨ c = 'E' then
      if phase = .zero ∨ phase = .whole ∨ phase = .fraction then
        some (.mark, { x with plain := false })
      else none
    else if phase = .mark then
      if c = '+' then some (.sign, x)
      else if c = '-' then some (.sign, { x with powerNegative := true })
      else none
    else none

/-! ### Tokens -/

/-- The two kinds of brackets. -/
inductive Delimiter
  | square
  | curly
deriving DecidableEq

/-- **A token.** -/
inductive Token
  /-- An opening bracket. -/
  | opening (kind : Delimiter)
  /-- A closing bracket. -/
  | closing (kind : Delimiter)
  | colon
  | comma
  | null
  | boolean (value : Bool)
  /-- A number, as it is written. -/
  | number (numeral : Numeral)
  /-- A string, or nothing if an escape in it names half of a surrogate pair. -/
  | text (content : Option String)
  /-- A character that starts or continues no token. -/
  | bad
deriving DecidableEq

/-! ### Strings -/

/-- A piece of a string: a character, or an escaped 16-bit unit. -/
inductive Piece
  | char (c : Char)
  | unit (value : Nat)
deriving DecidableEq

/-- Whether a unit is the first half of a surrogate pair. -/
def isLeading (u : Nat) : Bool := 0xD800 ≤ u ∧ u < 0xDC00

/-- Whether a unit is the second half of a surrogate pair. -/
def isTrailing (u : Nat) : Bool := 0xDC00 ≤ u ∧ u < 0xE000

/-- **The characters of a string.** A surrogate pair names one character, and half
of one names none. -/
def decodePieces : List Piece → Option (List Char)
  | [] => some []
  | .char c :: rest => (decodePieces rest).map (c :: ·)
  | .unit u :: rest =>
    if isLeading u then
      match rest with
      | .unit v :: rest =>
        if isTrailing v then
          (decodePieces rest).map
            (Char.ofNat (0x10000 + (u - 0xD800) * 0x400 + (v - 0xDC00)) :: ·)
        else none
      | _ => none
    else if isTrailing u then none
    else (decodePieces rest).map (Char.ofNat u :: ·)

/-- The character that a one-letter escape stands for. -/
def simpleEscape? (c : Char) : Option Char :=
  if c = '"' ∨ c = '\\' ∨ c = '/' then some c
  else if c = 'b' then some '\x08'
  else if c = 'f' then some '\x0c'
  else if c = 'n' then some '\n'
  else if c = 'r' then some '\r'
  else if c = 't' then some '\t'
  else none

/-- The value of a hexadecimal digit. -/
def hexDigit? (c : Char) : Option Nat :=
  if 'a' ≤ c ∧ c ≤ 'f' then some (c.toNat - 'a'.toNat + 10)
  else if 'A' ≤ c ∧ c ≤ 'F' then some (c.toNat - 'A'.toNat + 10)
  else digit? c

/-! ### The automaton -/

/-- **The states of the automaton.** -/
inductive Lexer
  /-- Between two tokens. -/
  | between
  /-- Within a number. -/
  | number (phase : Phase) (x : Numeral)
  /-- Within one of the three words; what is left of it, and its token. -/
  | word (expected : Char) (rest : List Char) (token : Token)
  /-- Within a string; its pieces so far, the last one first. -/
  | string (pieces : List Piece)
  /-- After a backslash. -/
  | escape (pieces : List Piece)
  /-- Within the digits of an escaped unit; how many are left, and their value. -/
  | unit (pieces : List Piece) (left value : Nat)
  /-- After a bad character. -/
  | dead
deriving DecidableEq

namespace Lexer

/-- A blank: space, tab, line feed or carriage return. -/
def isBlank (c : Char) : Bool := c = ' ' ∨ c = '\t' ∨ c = '\n' ∨ c = '\r'

/-- The end of all reading. -/
def refuse : List Token × Lexer := ([.bad], .dead)

/-- A character between two tokens. -/
def begin (c : Char) : List Token × Lexer :=
  if isBlank c then ([], .between)
  else if c = '[' then ([.opening .square], .between)
  else if c = ']' then ([.closing .square], .between)
  else if c = '\x7b' then ([.opening .curly], .between)
  else if c = '\x7d' then ([.closing .curly], .between)
  else if c = ':' then ([.colon], .between)
  else if c = ',' then ([.comma], .between)
  else if c = '"' then ([], .string [])
  else if c = 'n' then ([], .word 'u' ['l', 'l'] .null)
  else if c = 't' then ([], .word 'r' ['u', 'e'] (.boolean true))
  else if c = 'f' then ([], .word 'a' ['l', 's', 'e'] (.boolean false))
  else if c = '-' then ([], .number .start { negative := true })
  else
    match Numeral.next .start {} c with
    | some (phase, x) => ([], .number phase x)
    | none => refuse

/-- **One character**: the tokens it ends, and the state after it. -/
def step : Lexer → Char → List Token × Lexer
  | .between, c => begin c
  | .number phase x, c =>
    match x.next phase c with
    | some (phase, x) => ([], .number phase x)
    | none =>
      if phase.complete then (.number x :: (begin c).1, (begin c).2)
      else refuse
  | .word expected rest token, c =>
    if c = expected then
      match rest with
      | [] => ([token], .between)
      | expected :: rest => ([], .word expected rest token)
    else refuse
  | .string pieces, c =>
    if c = '"' then ([.text ((decodePieces pieces.reverse).map String.ofList)], .between)
    else if c = '\\' then ([], .escape pieces)
    else if c < ' ' then refuse
    else ([], .string (.char c :: pieces))
  | .escape pieces, c =>
    match simpleEscape? c with
    | some e => ([], .string (.char e :: pieces))
    | none => if c = 'u' then ([], .unit pieces 4 0) else refuse
  | .unit pieces left value, c =>
    match hexDigit? c with
    | some d =>
      let value := 16 * value + d
      if left ≤ 1 then ([], .string (.unit value :: pieces))
      else ([], .unit pieces (left - 1) value)
    | none => refuse
  | .dead, _ => ([], .dead)

/-- The tokens that the end of the text ends. -/
def finish : Lexer → List Token
  | .between => []
  | .number phase x => if phase.complete then [.number x] else [.bad]
  | .word _ _ _ => [.bad]
  | .string _ => [.bad]
  | .escape _ => [.bad]
  | .unit _ _ _ => [.bad]
  | .dead => []

/-- **The tokens of a text**, from a state of the automaton. -/
def run : Lexer → List Char → List Token
  | s, [] => s.finish
  | s, c :: rest => (s.step c).1 ++ run (s.step c).2 rest

/-- The tokens that an initial part of a text has ended. -/
def emitted : Lexer → List Char → List Token
  | _, [] => []
  | s, c :: rest => (s.step c).1 ++ emitted (s.step c).2 rest

/-- The state after an initial part of a text. -/
def after : Lexer → List Char → Lexer
  | s, [] => s
  | s, c :: rest => after (s.step c).2 rest

/-- The tokens of a text are those that an initial part has ended, then those that
the state reached makes of the rest. -/
theorem run_append (s : Lexer) (p q : List Char) :
    s.run (p ++ q) = s.emitted p ++ (s.after p).run q := by
  induction p generalizing s with
  | nil => rfl
  | cons c p ih =>
    simp only [List.cons_append, run, emitted, after, ih, List.append_assoc]

end Lexer

/-- **The tokens of a text.** -/
def tokens (text : String) : List Token := Lexer.between.run text.toList

end Json

end ScaledGauss
