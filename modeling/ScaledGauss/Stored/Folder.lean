/-!
# Folders and paths

A file is named by a path, and a path is walked name by name: from the top folder if
it begins with a slash, otherwise from the folder one stands in. Two things decide
what a path leads to.

* **Names that do not move.** Between two slashes there may be no name at all, or a
  single dot; both stay where they are. Two dots lead to the folder above, and from
  the top folder to itself.
* **The first obstacle counts.** A walk does not tidy its path first: a name that is
  missing stops it although two dots follow, and a file stops it as soon as anything
  follows, be it only a slash.

## Main definitions

– `ScaledGauss.PathError`: why a path leads to no file;
– `ScaledGauss.Entry`, `ScaledGauss.Place`: what a name stands for, and a folder with
  the folders above it;
– `ScaledGauss.Place.walk`, `ScaledGauss.Place.read`: the file at the end of a path.
-/

namespace ScaledGauss

/-- **Why a path leads to no file.** -/
inductive PathError
  /-- A name of the path is in no folder. -/
  | missing
  /-- The path goes on after a file. -/
  | throughFile
  /-- The path ends at a folder. -/
  | endsAtFolder
  /-- The path, or a name in it, is too long. -/
  | tooLong
deriving DecidableEq

/-- The text of a path that leads to no file. -/
def PathError.message : PathError → String
  | .missing => "No such file or directory (os error 2)"
  | .throughFile => "Not a directory (os error 20)"
  | .endsAtFolder => "Is a directory (os error 21)"
  | .tooLong => "File name too long (os error 36)"

/-! ### Folders -/

/-- **What a name stands for.** -/
inductive Entry
  /-- A file. -/
  | file (bytes : ByteArray)
  /-- A folder, with the names in it. -/
  | folder (entries : List (String × Entry))

/-- The names in a folder, and what they stand for. -/
abbrev Folder := List (String × Entry)

/-- **A folder one stands in**, with the folders above it, the nearest first. -/
structure Place where
  /-- The folder one stands in. -/
  here : Folder
  /-- The folders above it. -/
  above : List Folder

namespace Place

/-- The top folder. -/
def top (p : Place) : Place := ⟨p.above.getLastD p.here, []⟩

/-- The folder above; from the top folder, itself. -/
def parent (p : Place) : Place :=
  match p.above with
  | [] => p
  | folder :: rest => ⟨folder, rest⟩

/-- A folder in the one that one stands in. -/
def enter (p : Place) (folder : Folder) : Place := ⟨folder, p.here :: p.above⟩

/-! ### Walks -/

/-- The greatest number of bytes in a name. -/
def nameLimit : Nat := 255

/-- The greatest number of bytes in a path. -/
def pathLimit : Nat := 4095

/-- **The file at the end of a walk**, given the names on the way. -/
def walk (p : Place) : List String → Except PathError ByteArray
  | [] => .error .endsAtFolder
  | name :: rest =>
    if name = "" ∨ name = "." then p.walk rest
    else if name = ".." then p.parent.walk rest
    else if nameLimit < name.utf8ByteSize then .error .tooLong
    else
      match p.here.lookup name with
      | none => .error .missing
      | some (.folder folder) => (p.enter folder).walk rest
      | some (.file bytes) => if rest = [] then .ok bytes else .error .throughFile

/-- **The file at the end of a path.** The empty path leads nowhere. -/
def read (p : Place) (path : String) : Except PathError ByteArray :=
  if path = "" then .error .missing
  else if pathLimit < path.utf8ByteSize then .error .tooLong
  else
    match path.splitOn "/" with
    | "" :: names => p.top.walk names
    | names => p.walk names

end Place

end ScaledGauss
