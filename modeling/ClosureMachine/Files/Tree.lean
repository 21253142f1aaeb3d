import ClosureMachine.Files.Path

/-!
A tree of directories and files, and what a path leads to in it.
-/

namespace ClosureMachine

/-- Directories and files by the names on the way to them. Every directory on the way to another
entry is listed too, except for the outermost, which always exists. -/
structure FileTree where
  directories : List (List String) := []
  files : List (List String × ByteArray) := []

inductive ReadFault where
  | notFound
  | notDirectory
  | isDirectory
  /-- A name on the way, or the whole path, has more bytes than there may be. -/
  | nameTooLong
  /-- The path holds the character that ends a path. -/
  | holdsTerminator
  | notText
  deriving DecidableEq, Repr

def ReadFault.message : ReadFault → String
  | notFound => "No such file or directory (os error 2)"
  | notDirectory => "Not a directory (os error 20)"
  | isDirectory => "Is a directory (os error 21)"
  | nameTooLong => "File name too long (os error 36)"
  | holdsTerminator => "file name contained an unexpected NUL byte"
  | notText => "stream did not contain valid UTF-8"

def nameLimit : Nat := 255

def pathLimit : Nat := 4095

inductive Place where
  | directory (names : List String)
  | file (contents : ByteArray)

namespace FileTree

def addDirectory (t : FileTree) (names : List String) : FileTree :=
  { t with directories := (List.range (names.length + 1)).map names.take ++ t.directories }

def addFile (t : FileTree) (names : List String) (contents : ByteArray) : FileTree :=
  let t := t.addDirectory names.dropLast
  { t with files := (names, contents) :: t.files }

/-- Follow the parts of a path from a directory. Two points lead to the directory around it, a name
must not be too long, and a file can only come last. The first part that fails decides. -/
def walk (t : FileTree) (here : List String) : List String → Except ReadFault Place
  | [] => .ok (.directory here)
  | part :: rest =>
    if part = "" ∨ part = "." then t.walk here rest
    else if part = ".." then t.walk here.dropLast rest
    else if nameLimit < part.utf8ByteSize then .error .nameTooLong
    else
      let next := here ++ [part]
      match t.files.lookup next with
      | some contents => if rest.isEmpty then .ok (.file contents) else .error .notDirectory
      | none => if t.directories.contains next then t.walk next rest else .error .notFound

/-- What a path leads to, seen from a working directory. The path as a whole is checked before any
part of it is followed. -/
def resolve (t : FileTree) (here : List String) (path : String) : Except ReadFault Place :=
  if path.toList.contains '\x00' then .error .holdsTerminator
  else if path.isEmpty then .error .notFound
  else if pathLimit < path.utf8ByteSize then .error .nameTooLong
  else if path.toList.head? == some '/' then t.walk [] (Path.parts path)
  else t.walk here (Path.parts path)

/-- The directory that a path leads to, by the names on the way to it. -/
def directory? (t : FileTree) (here : List String) (path : String) : Option (List String) :=
  match t.resolve here path with
  | .ok (.directory names) => some names
  | _ => none

def isFile (t : FileTree) (here : List String) (path : String) : Bool :=
  match t.resolve here path with
  | .ok (.file _) => true
  | _ => false

def readText (t : FileTree) (here : List String) (path : String) : Except ReadFault String :=
  match t.resolve here path with
  | .error e => .error e
  | .ok (.directory _) => .error .isDirectory
  | .ok (.file contents) =>
    match String.fromUTF8? contents with
    | some s => .ok s
    | none => .error .notText

end FileTree

end ClosureMachine
