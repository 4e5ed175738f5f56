import ScaledGauss.Json.Real
import ScaledGauss.Scaled

/-!
# Reading values off a sequence of tokens

A reader takes a value off the front of a sequence of tokens and returns the rest.
It goes from left to right and stops at the first thing it cannot accept, so the
first fault of a text decides its error.

A **record** is written as an object, whose members may come in any order, or as an
array of its fields in their order. A member of an object that is no field is
passed over: its value has to be well formed and is not read. A field may not be
given twice, and a field that is not given is left open.

## Main definitions

– `ScaledGauss.Json.ReadError`, `ScaledGauss.Json.Reader`;
– `ScaledGauss.Json.skipValue`: the rest after any well-formed value;
– `ScaledGauss.Json.readList`: an array of numbers;
– `ScaledGauss.Json.readChoice`: one of several names;
– `ScaledGauss.Json.Slot`, `ScaledGauss.Json.readRecord`: records;
– `ScaledGauss.Json.decode`: a whole text.
-/

namespace ScaledGauss

namespace Json

/-- **Why a text is not read.** -/
inductive ReadError
  /-- The text is not well formed, or not of the form asked for. -/
  | malformed
  /-- A format was closed with an unsupported number of fractional bits. -/
  | unsupportedScale (fracBits : Nat)
deriving DecidableEq

/-- **A reader**: a value off the front, and the rest. -/
abbrev Reader (α : Type) := List Token → Except ReadError (α × List Token)

/-! ### Values passed over -/

/-- What may come next within a value that is passed over. -/
inductive Expected
  /-- A value. -/
  | value
  /-- A value, or the end of an array just opened. -/
  | firstValue
  /-- The name of a member. -/
  | name
  /-- The name of a member, or the end of an object just opened. -/
  | firstName
  /-- The colon after a name. -/
  | colon
  /-- A comma or a closing bracket. -/
  | separator
deriving DecidableEq

/-- The end of a bracket: it must be the one that was opened last. -/
def close (brackets : List Delimiter) (kind : Delimiter) :
    Option (List Delimiter × Expected) :=
  match brackets with
  | top :: rest => if top = kind then some (rest, .separator) else none
  | [] => none

/-- The beginning of a value. -/
def enter (brackets : List Delimiter) : Token → Option (List Delimiter × Expected)
  | .opening .square => some (.square :: brackets, .firstValue)
  | .opening .curly => some (.curly :: brackets, .firstName)
  | .null | .boolean _ | .number _ | .text _ => some (brackets, .separator)
  | .closing _ | .colon | .comma | .bad => none

/-- **One token of a value passed over**: the brackets open after it, and what may
come next. -/
def pass (brackets : List Delimiter) : Expected → Token → Option (List Delimiter × Expected)
  | .value, t => enter brackets t
  | .firstValue, .closing .square => close brackets .square
  | .firstValue, t => enter brackets t
  | .name, .text _ => some (brackets, .colon)
  | .firstName, .text _ => some (brackets, .colon)
  | .firstName, .closing .curly => close brackets .curly
  | .colon, .colon => some (brackets, .value)
  | .separator, .closing kind => close brackets kind
  | .separator, .comma =>
    match brackets with
    | .square :: _ => some (brackets, .value)
    | .curly :: _ => some (brackets, .name)
    | [] => none
  | _, _ => none

/-- The rest after the value that the open brackets belong to. The value ends where
no bracket is open any more. -/
def skipFrom (brackets : List Delimiter) (expected : Expected) :
    List Token → Except ReadError (List Token)
  | [] => .error .malformed
  | t :: rest =>
    match pass brackets expected t with
    | some ([], .separator) => .ok rest
    | some (brackets, expected) => skipFrom brackets expected rest
    | none => .error .malformed

/-- **The rest after a value**, of any kind and depth. -/
def skipValue (ts : List Token) : Except ReadError (List Token) := skipFrom [] .value ts

/-! ### Numbers, lists and names -/

/-- An integer within bounds. A fraction or an exponent is refused even where the
value is whole, and so is a negative zero. -/
def integerOf (least greatest : Int) : Token → Option Int
  | .number x =>
    let z : Int := if x.negative then -(x.digits : Int) else x.digits
    if x.plain = false ∨ (x.negative ∧ x.digits = 0) ∨ z < least ∨ greatest < z then none
    else some z
  | _ => none

/-- A raw value. -/
def scaledOf (t : Token) : Option Scaled :=
  (integerOf (-0x80000000) 0x7fffffff t).map Scaled.wrap

/-- A natural number below a bound. -/
def naturalOf (bound : Nat) (t : Token) : Option Nat :=
  (integerOf 0 (bound - 1) t).map Int.toNat

/-- A real, unless the number is too large for one. -/
def realOf : Token → Option Binary64
  | .number x => x.real?
  | _ => none

/-- A value of one token. -/
def readToken {α : Type} (value : Token → Option α) : Reader α
  | t :: rest =>
    match value t with
    | some a => .ok (a, rest)
    | none => .error .malformed
  | [] => .error .malformed

/-- The elements of an array that is not empty, each a single token. -/
def readElements {α : Type} (value : Token → Option α) : Reader (List α)
  | t :: .closing .square :: rest =>
    match value t with
    | some a => .ok ([a], rest)
    | none => .error .malformed
  | t :: .comma :: rest =>
    match value t with
    | some a => do
      let (as, rest) ← readElements value rest
      return (a :: as, rest)
    | none => .error .malformed
  | _ => .error .malformed

/-- **An array** whose elements are single tokens. -/
def readList {α : Type} (value : Token → Option α) : Reader (List α)
  | .opening .square :: .closing .square :: rest => .ok ([], rest)
  | .opening .square :: rest => readElements value rest
  | _ => .error .malformed

/-- **One of several names**: as a string, or as an object with that name as its
only member, of value null. -/
def readChoice {α : Type} (choice : String → Option α) : Reader α
  | .text (some name) :: rest =>
    match choice name with
    | some a => .ok (a, rest)
    | none => .error .malformed
  | .opening .curly :: .text (some name) :: .colon :: .null :: .closing .curly :: rest =>
    match choice name with
    | some a => .ok (a, rest)
    | none => .error .malformed
  | _ => .error .malformed

/-! ### Records -/

/-- **A slot** for one field of a record in the making. -/
structure Slot (ρ : Type) where
  /-- The name of the field. -/
  name : String
  /-- Reads the field into the record, unless it has been given already. -/
  read : ρ → Reader ρ

/-- The slot for a field that is held at a place of the record. -/
def Slot.of {ρ α : Type} (name : String) (get : ρ → Option α) (put : ρ → α → ρ)
    (read : Reader α) : Slot ρ where
  name := name
  read record ts :=
    match get record with
    | some _ => .error .malformed
    | none => do
      let (a, rest) ← read ts
      return (put record a, rest)

/-- One member of an object: a field is read, anything else is passed over. -/
def readMember {ρ : Type} (slots : List (Slot ρ)) (name : String) (record : ρ) : Reader ρ :=
  fun ts =>
    match slots.find? (·.name = name) with
    | some slot => slot.read record ts
    | none => do return (record, ← skipValue ts)

/-- The members of an object that is not empty. Every member takes at least one
token, so as many rounds as there are tokens are enough. -/
def readMembers {ρ : Type} (slots : List (Slot ρ)) : Nat → ρ → Reader ρ
  | rounds + 1, record, .text (some name) :: .colon :: ts => do
    let (record, ts) ← readMember slots name record ts
    match ts with
    | .comma :: rest => readMembers slots rounds record rest
    | .closing .curly :: rest => return (record, rest)
    | _ => .error .malformed
  | _, _, _ => .error .malformed

/-- The elements of an array that is not empty, each the field in its turn. -/
def readInOrder {ρ : Type} : List (Slot ρ) → ρ → Reader ρ
  | [], _, _ => .error .malformed
  | slot :: slots, record, ts => do
    let (record, ts) ← slot.read record ts
    match ts with
    | .comma :: rest => readInOrder slots record rest
    | .closing .square :: rest => return (record, rest)
    | _ => .error .malformed

/-- **A record**, as an object or as an array of its fields in order. -/
def readRecord {ρ : Type} (slots : List (Slot ρ)) (empty : ρ) : Reader ρ
  | .opening .curly :: .closing .curly :: rest => .ok (empty, rest)
  | .opening .curly :: rest => readMembers slots rest.length empty rest
  | .opening .square :: .closing .square :: rest => .ok (empty, rest)
  | .opening .square :: rest => readInOrder slots empty rest
  | _ => .error .malformed

/-! ### Whole texts -/

/-- **A whole text**: one value, and nothing after it. -/
def decode {α : Type} (read : Reader α) (text : String) : Except ReadError α := do
  let (a, rest) ← read (tokens text)
  if rest = [] then return a else .error .malformed

end Json

end ScaledGauss
