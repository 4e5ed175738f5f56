import ScaledGauss.Stored.Folder
import ScaledGauss.Stored.Reading
import ScaledGauss.Stored.Written

/-!
# Loading and saving

A configuration or a problem is loaded from the bytes of a file: there must be such a
file, its bytes must be text, the text must be read, and the configuration must have
unknowns – in this order. A configuration is saved as the text that loading reads
again.

## Main definitions

– `ScaledGauss.LoadError`: why something is not loaded or saved, with the chain of
  its causes;
– `ScaledGauss.Config.ofText`, `ScaledGauss.Problem.ofText`: from a text;
– `ScaledGauss.Config.load`, `ScaledGauss.Problem.load`: from a file, if the
  path leads to one;
– `ScaledGauss.Config.save`: the text to put in a file.
-/

namespace ScaledGauss

/-- **Why something is not loaded or saved.** -/
inductive LoadError
  /-- The path leads to no file, or to no folder to put it in. -/
  | unreached (cause : PathError)
  /-- The file is not text. -/
  | notText
  /-- The text is not read. -/
  | unread (cause : Json.ReadError)
  /-- What the text says is refused. -/
  | refused (cause : Error)
deriving DecidableEq

/-- The text of a text that is not read. The line and the column at which reading
stopped, which would stand at its end, are left out, and so is what exactly makes a
text malformed. -/
def Json.ReadError.message : Json.ReadError → String
  | .malformed => "malformed text"
  | .unsupportedScale fracBits => (Error.unsupportedScale fracBits).message

/-- **The chain of causes** of a failed load, the outermost first. -/
def LoadError.causes : LoadError → List String
  | .unreached cause => ["IO error: " ++ cause.message, cause.message]
  | .notText =>
    let reason := "stream did not contain valid UTF-8"
    ["IO error: " ++ reason, reason]
  | .unread cause => ["JSON error: " ++ cause.message, cause.message]
  | .refused cause => [cause.message]

/-- The text of a failed load: its outermost cause. Of a text that is not read it does
not tell the position (`ScaledGauss.Json.ReadError.message`). -/
def LoadError.message (e : LoadError) : String := e.causes.headD ""

/-- The bytes of a file as text, if there is such a file and it is text. -/
def textOf (file : Except PathError ByteArray) : Except LoadError String :=
  match file with
  | .error cause => .error (.unreached cause)
  | .ok bytes =>
    match String.fromUTF8? bytes with
    | some text => .ok text
    | none => .error .notText

/-- A text as a value. -/
def parse {α : Type} (read : Json.Reader α) (text : String) : Except LoadError α :=
  match Json.decode read text with
  | .ok a => .ok a
  | .error cause => .error (.unread cause)

/-- A configuration that is valid. -/
def Config.checked (c : Config) : Except LoadError Unit :=
  match c.validate with
  | .ok () => .ok ()
  | .error cause => .error (.refused cause)

/-- **A configuration from its text.** -/
def Config.ofText (text : String) : Except LoadError Config := do
  let c ← parse Stored.config text
  c.checked
  return c

/-- **A problem from its text.** -/
def Problem.ofText (text : String) : Except LoadError Problem := do
  let p ← parse Stored.problem text
  p.config.checked
  return p

/-- A configuration from a file. -/
def Config.load (file : Except PathError ByteArray) : Except LoadError Config := do
  Config.ofText (← textOf file)

/-- A problem from a file. -/
def Problem.load (file : Except PathError ByteArray) : Except LoadError Problem := do
  Problem.ofText (← textOf file)

/-- **The text of a configuration's file**, if there is a folder to put it in. -/
def Config.save (c : Config) (folderExists : Bool) : Except LoadError String :=
  if folderExists then .ok c.document.pretty else .error (.unreached .missing)

end ScaledGauss
