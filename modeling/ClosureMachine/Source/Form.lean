import ClosureMachine.Source.Token
import ClosureMachine.Word

/-!
Forms, the trees that source text denotes, and how they are read from tokens. The reader keeps a
stack of what is still open: lists with the forms read so far, and quotes waiting for their form.
-/

namespace ClosureMachine

inductive Form where
  | int (n : Int64)
  | atom (name : String)
  | list (items : List Form)
  deriving Repr, Inhabited

def decimal? (cs : List Char) : Option Nat :=
  if cs.isEmpty || !cs.all Char.isDigit then none
  else some (cs.foldl (fun n c => 10 * n + (c.toNat - '0'.toNat)) 0)

def integer? (cs : List Char) : Option Int64 := do
  let n : Int ← match cs with
    | '-' :: ds => (decimal? ds).map fun n => -(n : Int)
    | '+' :: ds => (decimal? ds).map fun n => (n : Int)
    | ds => (decimal? ds).map fun n => (n : Int)
  int64? n

namespace Form

/-- A word is a number if it reads as one, and a name otherwise. -/
def ofWord (cs : List Char) : Form :=
  match integer? cs with
  | some n => int n
  | none => atom (String.ofList cs)

def quoted (f : Form) : Form := list [atom "quote", f]

/-- Something open: a list with the forms read so far in reverse, or a quote. -/
inductive Pending where
  | list (items : List Form)
  | quote

/-- What is open, innermost first, and the complete forms in reverse. -/
structure Reading where
  stack : List Pending := []
  forms : List Form := []

namespace Reading

/-- A form is complete: it ends the quotes before it and joins the list around them. -/
def deliver (f : Form) (forms : List Form) : List Pending → Reading
  | [] => ⟨[], f :: forms⟩
  | .quote :: stack => deliver (quoted f) forms stack
  | .list items :: stack => ⟨.list (f :: items) :: stack, forms⟩

/-- Take one token. A closing parenthesis with no list to close is an ordinary name. -/
def take (r : Reading) : Token → Reading
  | .opening => { r with stack := .list [] :: r.stack }
  | .quote => { r with stack := .quote :: r.stack }
  | .word cs => deliver (ofWord cs) r.forms r.stack
  | .closing =>
    match r.stack with
    | .list items :: stack => deliver (Form.list items.reverse) r.forms stack
    | stack => deliver (atom ")") r.forms stack

end Reading

/-- The forms of a token sequence; nothing may be left open at its end. -/
def ofTokens? (ts : List Token) : Option (List Form) :=
  let r := ts.foldl Reading.take {}
  if r.stack.isEmpty then some r.forms.reverse else none

def readAll? (s : String) : Option (List Form) := ofTokens? (Token.ofText s)

end Form

end ClosureMachine
