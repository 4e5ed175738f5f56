import ScaledGauss.Scaled

/-!
# Writing JSON

What this library writes is made of integers, plain names, arrays and objects whose
members have an order. A document is written on one line, or laid out with one
element or member on a line and two blanks for each level of nesting.

## Main definitions

– `ScaledGauss.Json.Document`: what can be written;
– `ScaledGauss.Json.Document.compact`, `ScaledGauss.Json.Document.pretty`: the two
  layouts.
-/

namespace ScaledGauss

namespace Json

/-- **A document.** Names contain no character that would have to be escaped. -/
inductive Document
  | integer (value : Int)
  | name (text : String)
  | list (items : List Document)
  | record (members : List (String × Document))

namespace Document

/-- A name in its quotation marks. -/
def quoted (name : String) : String := "\"" ++ name ++ "\""

/-- A sequence of raw values. -/
def scaledList (values : List Scaled) : Document := .list (values.map fun a => .integer a.val)

mutual

/-- **A document on one line.** -/
def compact : Document → String
  | .integer value => toString value
  | .name text => quoted text
  | .list items => "[" ++ ",".intercalate (compactItems items) ++ "]"
  | .record members => "\x7b" ++ ",".intercalate (compactMembers members) ++ "\x7d"

/-- The elements of an array, each on one line. -/
def compactItems : List Document → List String
  | [] => []
  | item :: rest => compact item :: compactItems rest

/-- The members of an object, each on one line. -/
def compactMembers : List (String × Document) → List String
  | [] => []
  | (key, value) :: rest => (quoted key ++ ":" ++ compact value) :: compactMembers rest

end

/-- A new line at a level of nesting. -/
def newline (level : Nat) : String := "\n" ++ String.ofList (List.replicate (2 * level) ' ')

/-- Lines between brackets at a level of nesting; without lines, the brackets
alone. -/
def enclose (level : Nat) (opening closing : String) (lines : List String) : String :=
  if lines = [] then opening ++ closing
  else
    opening ++ newline (level + 1) ++ ("," ++ newline (level + 1)).intercalate lines ++
      newline level ++ closing

mutual

/-- A document laid out at a level of nesting. -/
def prettyAt (level : Nat) : Document → String
  | .integer value => toString value
  | .name text => quoted text
  | .list items => enclose level "[" "]" (prettyItems (level + 1) items)
  | .record members => enclose level "\x7b" "\x7d" (prettyMembers (level + 1) members)

/-- The elements of an array, laid out. -/
def prettyItems (level : Nat) : List Document → List String
  | [] => []
  | item :: rest => prettyAt level item :: prettyItems level rest

/-- The members of an object, laid out. -/
def prettyMembers (level : Nat) : List (String × Document) → List String
  | [] => []
  | (key, value) :: rest =>
    (quoted key ++ ": " ++ prettyAt level value) :: prettyMembers level rest

end

/-- **A document laid out on several lines.** -/
def pretty (d : Document) : String := prettyAt 0 d

end Document

end Json

end ScaledGauss
