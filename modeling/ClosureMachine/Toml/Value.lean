/-!
TOML data: what a document says, whichever way its tables are written.
-/

namespace ClosureMachine.Toml

/-- The largest integer of 64 bits, 2 ^ 63 - 1. -/
def maxInteger : Nat := 9223372036854775807

/-- A value without parts. Floats and times are kept as they are written. -/
inductive Scalar where
  | string (s : String)
  | integer (n : Int)
  | float (text : String)
  | boolean (b : Bool)
  | dateTime (text : String)
  deriving DecidableEq, Repr

inductive Value where
  | scalar (s : Scalar)
  | array (items : List Value)
  | table (entries : List (String × Value))
  deriving Repr, Inhabited

abbrev Entries := List (String × Value)

structure Section where
  name : String
  numbers : List (String × Nat)
  deriving DecidableEq, Repr

namespace Section

def text (s : Section) : String :=
  s!"[{s.name}]\n" ++ String.join (s.numbers.map fun (key, n) => s!"{key} = {n}\n")

/-- Sections as they are written, with an empty line between any two. -/
def document : List Section → String
  | [] => ""
  | [s] => s.text
  | s :: ss => s.text ++ "\n" ++ document ss

end Section

end ClosureMachine.Toml
