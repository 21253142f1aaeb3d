import ClosureMachine.Code.Basic
import ClosureMachine.Settings

/-!
Why a machine stops. Errors carry their causes; the wording is made from the cause by one function
each. Two kinds are fatal: they mean that the code or the host is broken, not the program.
-/

namespace ClosureMachine

inductive Malformation where
  | outOfRange (id : NodeId) (size : Nat)
  | missingTarget (id : NodeId) (op : Opcode) (target : NodeId)
  | missingFormals (id : NodeId) (formals : FormalsId)
  | repeatedFormal (id : NodeId) (name : SymbolId)
  | unknownFormals (formals : FormalsId)
  | unknownPrimitive (id : PrimitiveId)
  | staleEnvironment
  | staleBindings
  | staleFrame
  | staleArguments
  | staleClosure
  | staleContinuation
  | reported (text : String)
  deriving DecidableEq, Repr

def Malformation.message : Malformation → String
  | outOfRange id size => s!"{nodeLabel id} is out of range for a table of {size}"
  | missingTarget id op target =>
    s!"{nodeLabel id} ({op.name}) targets missing node {nodeLabel target}"
  | missingFormals id formals => s!"{nodeLabel id} (close) uses unknown formals list {formals}"
  | repeatedFormal id name => s!"{nodeLabel id} (close) binds {symbolLabel name} twice"
  | unknownFormals formals => s!"unknown formals list {formals}"
  | unknownPrimitive id => s!"unknown primitive {id}"
  | staleEnvironment => "environment frame is stale"
  | staleBindings => "environment rib is stale"
  | staleFrame => "call frame is stale"
  | staleArguments => "saved argument rib is stale"
  | staleClosure => "closure is stale"
  | staleContinuation => "continuation is stale"
  | reported text => text

inductive CheckedOp where
  | add
  | subtract
  | negate
  deriving DecidableEq, Repr

def CheckedOp.message : CheckedOp → String
  | add => "attempt to add with overflow"
  | subtract => "attempt to subtract with overflow"
  | negate => "attempt to negate with overflow"

inductive MachineError where
  | unboundVariable (id : SymbolId)
  | notCallable (value : Value)
  | arityMismatch (callee : Value) (expected : Arity) (actual : Nat)
  | outOfMemory (cause : ArenaError)
  | primitiveFailed (name message : String)
  | instructionLimitExceeded (limit : Nat)
  | deadlineExceeded (instructions : Nat)
  | stackUnderflow (node : NodeId)
  | malformed (cause : Malformation)
  | invalidSettings (defect : SettingsDefect)
  | overflow (op : CheckedOp)
  /-- Never reported: the instruction walks along a chain that has no end and does not return. -/
  | endless
  deriving DecidableEq, Repr

/-- The code or the host is broken, not the program being run. -/
def MachineError.isFatal : MachineError → Bool
  | stackUnderflow _ | malformed _ | endless => true
  | _ => false

/-- The wording of an error, given how symbols and values are shown. -/
def MachineError.message (symbolText : SymbolId → String) (valueText : Value → String) :
    MachineError → String
  | unboundVariable id => s!"unbound variable: {symbolText id}"
  | notCallable value => s!"attempt to apply non-procedure {valueText value}"
  | arityMismatch callee expected actual =>
    s!"{valueText callee}: expected {expected.text} argument(s), got {actual}"
  | outOfMemory cause => cause.message
  | primitiveFailed name message => s!"{name}: {message}"
  | instructionLimitExceeded limit => s!"instruction limit exceeded: {limit}"
  | deadlineExceeded instructions => s!"deadline exceeded after {instructions} instructions"
  | stackUnderflow node => s!"return with an empty frame stack at {nodeLabel node}"
  | malformed cause => s!"malformed instruction graph: {cause.message}"
  | invalidSettings defect => defect.message
  | overflow op => op.message
  | endless => "the instruction does not return"

end ClosureMachine
