import ClosureMachine.Arena.Handle
import ClosureMachine.Double.Text
import ClosureMachine.Symbol

/-!
Values and the records they point to. Immediate values are complete in themselves; a closure or a
continuation is a reference to a record in the arena. Records refer to each other by links, so that
each fits in one block.
-/

namespace ClosureMachine

/-- Position of an instruction in its code. -/
abbrev NodeId := Nat

/-- Position of a list of parameter names in its code. -/
abbrev FormalsId := Nat

/-- Position of a host procedure in its machine. -/
abbrev PrimitiveId := Nat

def nodeLabel (id : NodeId) : String := s!"#:vmx {id}"

/-- Head of a stored environment frame: the names it binds and the frame around it. The `length`
values bound follow it in the same run. -/
structure EnvHeader where
  names : FormalsId
  parent : Link
  length : Nat
  deriving DecidableEq, Repr, Inhabited

/-- Head of a stored call frame: where to resume, in which environment, and the frame below. The
`length` saved arguments follow it in the same run. -/
structure FrameHeader where
  returnTo : NodeId
  env : Link
  link : Link
  length : Nat
  deriving DecidableEq, Repr, Inhabited

abbrev EnvRef := Ref EnvHeader

abbrev FrameRef := Ref FrameHeader

/-- A procedure body with the environment it was made in. -/
structure Closure where
  formals : FormalsId
  body : NodeId
  env : Option EnvRef
  deriving DecidableEq, Repr, Inhabited

/-- A captured control stack and the number of its frames. -/
structure Continuation where
  stack : Option FrameRef
  depth : Nat
  deriving DecidableEq, Repr, Inhabited

inductive Value where
  | nil
  | bool (b : Bool)
  | int (n : Int64)
  | float (x : Double)
  | symbol (id : SymbolId)
  /-- Host data that the machine carries without looking inside. -/
  | host (handle : UInt64)
  | unspecified
  | closure (r : Ref Closure)
  | continuation (r : Ref Continuation)
  | primitive (id : PrimitiveId)
  deriving DecidableEq, Repr

instance : Inhabited Value := ⟨.unspecified⟩

namespace Value

/-- Everything but false counts as true. -/
def isTruthy : Value → Bool
  | bool false => false
  | _ => true

def isProcedure : Value → Bool
  | closure _ | continuation _ | primitive _ => true
  | _ => false

def isBoxed : Value → Bool
  | closure _ | continuation _ => true
  | _ => false

def asInt? : Value → Option Int64
  | int n => some n
  | _ => none

def kind : Value → String
  | nil => "null"
  | bool _ => "boolean"
  | int _ => "integer"
  | float _ => "real"
  | symbol _ => "symbol"
  | host _ => "opaque"
  | unspecified => "unspecified"
  | closure _ => "procedure"
  | continuation _ => "continuation"
  | primitive _ => "primitive"

/-- Equality as programs see it: floats are compared as numbers, all else exactly. -/
def same : Value → Value → Bool
  | float x, float y => x.same y
  | v, w => v == w

/-- The written form of a value when neither symbols nor host procedures are known by name. -/
def text : Value → String
  | nil => "()"
  | bool true => "#t"
  | bool false => "#f"
  | int n => toString n.toInt
  | float x => x.text
  | symbol id => symbolLabel id
  | host handle => s!"#<opaque {handle.toNat}>"
  | unspecified => "#<unspecified>"
  | closure r => s!"#<procedure @{r.addr.offset}>"
  | continuation r => s!"#<continuation @{r.addr.offset}>"
  | primitive id => s!"#<primitive {id}>"

end Value

inductive Arity where
  | exactly (n : Nat)
  | atLeast (n : Nat)
  deriving DecidableEq, Repr, Inhabited

namespace Arity

def accepts : Arity → Nat → Bool
  | exactly k, n => n == k
  | atLeast k, n => k ≤ n

def text : Arity → String
  | exactly k => toString k
  | atLeast k => s!"at least {k}"

def describe : Arity → String
  | exactly k => s!"Exactly({k})"
  | atLeast k => s!"AtLeast({k})"

end Arity

end ClosureMachine
