/-!
Files, and how a path leads to one. A path is a list of names to go through in
order, from the root if it begins with a slash and otherwise from the working
directory. The first name that leads nowhere decides how the lookup fails.
-/

namespace ClassLang

/-- Why a file could not be read as a text. -/
inductive ReadFailure where
  | missing
  | denied
  | notDirectory
  | isDirectory
  | nameTooLong
  /-- A failure that is known by its number and its text only. -/
  | other (number : Nat) (text : String)
  | notUtf8
deriving DecidableEq

namespace ReadFailure

/-- The failure to which the system gives this number. -/
def ofNumber (number : Nat) (text : String) : ReadFailure :=
  match number with
  | 2 => .missing
  | 13 => .denied
  | 20 => .notDirectory
  | 21 => .isDirectory
  | 36 => .nameTooLong
  | _ => .other number text

def message : ReadFailure → String
  | .missing => "No such file or directory (os error 2)"
  | .denied => "Permission denied (os error 13)"
  | .notDirectory => "Not a directory (os error 20)"
  | .isDirectory => "Is a directory (os error 21)"
  | .nameTooLong => "File name too long (os error 36)"
  | .other number text => s!"{text} (os error {number})"
  | .notUtf8 => "stream did not contain valid UTF-8"

/-- The text that bytes encode. -/
def decode (bytes : ByteArray) : Except ReadFailure String :=
  match String.fromUTF8? bytes with
  | some text => .ok text
  | none => .error .notUtf8

end ReadFailure

inductive FileTree where
  | file (content : ByteArray)
  | directory (entries : List (String × FileTree))

namespace FileTree

/-- The most bytes that a name may have. -/
def maxNameBytes : Nat := 255

/-- The most bytes that a path may have. -/
def maxPathBytes : Nat := 4095

/-- A file or directory and the directories above it, the nearest first. -/
structure Place where
  node : FileTree
  above : List FileTree

/-- The names that a path goes through. Slashes count once however many they
are, and one at the end asks for a directory, as a dot there does. -/
def names (path : String) : List String :=
  let parts := (path.toList.splitOn '/').map String.ofList
  parts.filter (· ≠ "") ++ if parts.getLast? = some "" then ["."] else []

namespace Place

/-- The topmost directory. -/
def root (place : Place) : Place :=
  match place.above.getLast? with
  | some top => ⟨top, []⟩
  | none => ⟨place.node, []⟩

/-- Go through one name. Nothing can be looked up in a file, not even the file
itself; above the root stands the root. -/
def step (place : Place) (name : String) : Except ReadFailure Place :=
  match place.node with
  | .file _ => .error .notDirectory
  | .directory entries =>
    if name = "." then .ok place
    else if name = ".." then
      match place.above with
      | [] => .ok place
      | parent :: rest => .ok ⟨parent, rest⟩
    else if maxNameBytes < name.utf8ByteSize then .error .nameTooLong
    else match entries.lookup name with
      | some node => .ok ⟨node, place.node :: place.above⟩
      | none => .error .missing

/-- Where a path leads from here. -/
def find (place : Place) (path : String) : Except ReadFailure Place :=
  if path = "" then .error .missing
  else if maxPathBytes < path.utf8ByteSize then .error .nameTooLong
  else (names path).foldlM step (if path.toList.head? = some '/' then place.root else place)

/-- The text of the file that a path leads to from here. -/
def readText (place : Place) (path : String) : Except ReadFailure String := do
  match (← place.find path).node with
  | .file content => ReadFailure.decode content
  | .directory _ => throw .isDirectory

end Place

end FileTree

end ClassLang
