import FrameCode.Host

/-! Files, and the paths that lead to them. -/

namespace FrameCode.CommandLine

/-- What a path leads to: nothing that opens, something that opens but cannot be
read, or bytes. -/
inductive File where
  | closed (message : String)
  | unreadable (message : String)
  | content (bytes : ByteArray)

namespace File

def absent : File := .closed "No such file or directory (os error 2)"

def directory : File := .unreadable "Is a directory (os error 21)"

/-- A path that goes on after the name of a file. -/
def notDirectory : File := .closed "Not a directory (os error 20)"

def nameTooLong : File := .closed "File name too long (os error 36)"

/-- The whole of a file as text. -/
def text : File → Except String String
  | closed message => .error message
  | unreadable message => .error message
  | content bytes =>
    match String.fromUTF8? bytes with
    | some text => .ok text
    | none => .error "stream did not contain valid UTF-8"

/-- The lines of a file. One that cannot be read fails when its first line is asked for. -/
def input : File → Except String Input
  | closed message => .error message
  | unreadable message => .ok { refusal := fun _ => some message }
  | content bytes => .ok (.ofBytes bytes.data.toList)

end File

/-! ## Folders -/

/-- What a name in a folder stands for. -/
inductive Entry where
  | file (bytes : ByteArray)
  | folder (entries : List (String × Entry))

abbrev Folder : Type := List (String × Entry)

namespace Folder

/-- The longest name, in bytes. -/
def nameLimit : Nat := 255

/-- One more than the length of the longest path, in bytes. -/
def pathLimit : Nat := 4096

/-- The names of a path. A repeated or a last slash leaves an empty one. -/
def names (path : String) : List String := (path.toList.splitOn '/').map String.ofList

/-- Follows names from a folder, with those around it nearest first. An empty name
and a dot stay, two dots go up, and only a folder may be left behind. -/
def follow (around : List Folder) (here : Folder) : List String → File
  | [] => .directory
  | name :: rest =>
    if name = "" ∨ name = "." then follow around here rest
    else if name = ".." then
      match around with
      | [] => follow [] here rest
      | above :: around => follow around above rest
    else if nameLimit < name.utf8ByteSize then .nameTooLong
    else match here.lookup name with
      | none => .absent
      | some (.folder inner) => follow (here :: around) inner rest
      | some (.file bytes) => if rest = [] then .content bytes else .notDirectory

/-- The part of a file system's root that is the same everywhere: some folders, and
the null device as an empty file. -/
def root : Folder :=
  [("dev", .folder [("null", .file .empty)]), ("etc", .folder []), ("tmp", .folder []),
    ("usr", .folder []), ("var", .folder [])]

/-- What a path leads to from a working folder. Nothing is known of the folders
above it. -/
def file (working : Folder) (path : String) : File :=
  if pathLimit ≤ path.utf8ByteSize then .nameTooLong
  else if path.toList.head? = some '/' then follow [] root (names path)
  else follow [[]] working (names path)

/-- Puts a file at the end of the given names, in place of what is there. -/
def write (bytes : ByteArray) : List String → Folder → Folder
  | [], here => here
  | [name], here => (name, .file bytes) :: here
  | name :: rest, here =>
    let inner := match here.lookup name with
      | some (.folder inner) => inner
      | _ => []
    (name, .folder (write bytes rest inner)) :: here

end Folder

end FrameCode.CommandLine
