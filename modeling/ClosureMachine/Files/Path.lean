/-!
Paths as text, with slashes between their parts. A part that is empty or a single point leads
nowhere and is skipped, except for a point at the very beginning. Two points lead upwards; they are
kept, since where they lead depends on the files.
-/

namespace ClosureMachine.Path

def isIdle (part : List Char) : Bool := part.isEmpty || part == ['.']

/-- Drop idle parts from the end of a path that is given in reverse, at most `fuel` of them. -/
def dropIdle : Nat → List Char → List Char
  | 0, cs => cs
  | _, [] => []
  | fuel + 1, cs =>
    if isIdle (cs.takeWhile (· != '/')) then dropIdle fuel ((cs.dropWhile (· != '/')).drop 1)
    else cs

/-- Whether a path starts with the part that stands for the directory itself. -/
def startsHere : List Char → Bool
  | ['.'] => true
  | '.' :: '/' :: _ => true
  | _ => false

/-- Length of what no parent loses: a slash or a point at the beginning. -/
def anchorLength (cs : List Char) : Nat :=
  if cs.head? == some '/' || startsHere cs then 1 else 0

def parent? (path : String) : Option String :=
  let cs := path.toList
  let n := anchorLength cs
  match dropIdle cs.length (cs.drop n).reverse with
  | [] => if startsHere cs then some "" else none
  | back =>
    let front := dropIdle cs.length ((back.dropWhile (· != '/')).drop 1)
    some (String.ofList (cs.take n ++ front.reverse))

def ancestorsUpTo : Nat → String → List String
  | 0, _ => []
  | fuel + 1, path =>
    path :: match parent? path with
      | some p => ancestorsUpTo fuel p
      | none => []

def ancestors (path : String) : List String := ancestorsUpTo (path.length + 1) path

/-- A path inside a directory; one that starts with a slash does not depend on it. -/
def join (directory path : String) : String :=
  if path.toList.head? == some '/' || directory.isEmpty then path
  else if directory.toList.getLast? == some '/' then directory ++ path
  else directory ++ "/" ++ path

def parts (path : String) : List String := path.splitOn "/"

end ClosureMachine.Path
