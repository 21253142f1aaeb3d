import ClosureMachine.Code.Validation
import ClosureMachine.Globals
import ClosureMachine.Source.Form

/-!
Lowering: forms to instructions. Code is written back to front, so an instruction names only those
before it: each form is lowered for the instruction that is to follow it. Arguments come before
their operator and are evaluated from left to right. A call is bracketed by a frame unless what
follows it is a return. A form that has no meaning stops the work; what was written until then
stays.
-/

namespace ClosureMachine

/-- What lowering reads and extends. -/
structure Workspace where
  symbols : SymbolTable
  keywords : Keywords
  code : Code
  globals : Globals
  deriving Inhabited

/-- Work that may stop, and then leaves what it has done. -/
abbrev Lowering := OptionT (StateM Workspace)

namespace Lowering

def symbol (name : String) : Lowering SymbolId :=
  modifyGet fun w =>
    let (id, symbols) := w.symbols.intern name
    (id, { w with symbols })

def emit (n : Node) : Lowering NodeId :=
  modifyGet fun w =>
    let (id, code) := w.code.append n
    (id, { w with code })

def emitClose (names : List SymbolId) (body next : NodeId) : Lowering NodeId :=
  modifyGet fun w =>
    let (id, code) := w.code.addClose names body next
    (id, { w with code })

/-- Make sure that a global exists. -/
def declare (id : SymbolId) : Lowering Unit :=
  modify fun w =>
    if w.globals.contains id then w
    else { w with globals := w.globals.define id .unspecified }

def keyword? : Form → Lowering (Option Keyword)
  | .atom name => do
    let w ← get
    return (w.symbols.find? name).bind w.keywords.classify
  | _ => return none

/-- Bracket a call that starts at `start` and is followed by `next`. -/
def bracket (start next : NodeId) : Lowering NodeId := do
  if (← get).code.isTail next then return start else emit (.frame next start)

def parameters : List Form → Lowering (List SymbolId)
  | [] => return []
  | .atom name :: rest => do
    let id ← symbol name
    return id :: (← parameters rest)
  | _ :: _ => failure

/-- The value of a quoted form; a list is not kept. -/
def quotedValue : Form → Lowering Value
  | .int n => return .int n
  | .atom name => return .symbol (← symbol name)
  | .list _ => return .nil

/-- The symbol that an assignment names; with `declaring`, it is made a global. -/
def target (declaring : Bool) (name : String) : Lowering SymbolId := do
  let id ← symbol name
  if declaring then declare id
  return id

def quotation (items : List Form) (next : NodeId) : Lowering NodeId :=
  match items with
  | datum :: _ => do emit (.constant (← quotedValue datum) next)
  | [] => failure

mutual

/-- Lower a form that `next` follows; the answer is where it starts. -/
def form : Form → NodeId → Lowering NodeId
  | .int n, next => emit (.constant (.int n) next)
  | .atom name, next => do
    if name = "#t" then emit (.constant (.bool true) next)
    else if name = "#f" then emit (.constant (.bool false) next)
    else emit (.refer (← symbol name) next)
  | .list items, next => compound items next

/-- Lower a list of forms as what its head makes of it. -/
def compound : List Form → NodeId → Lowering NodeId
  | [], next => emit (.constant .nil next)
  | head :: items, next => do
    match ← keyword? head with
    | some .quote => quotation items next
    | some .lambda => abstraction items next
    | some .conditional => conditional items next
    | some .assign => assignment false items next
    | some .define => assignment true items next
    | some .sequence => sequence items next
    | some .callCc =>
      let call ← emit .apply
      let callee ← first items call
      let arg ← emit (.argument callee)
      bracket (← emit (.conti arg)) next
    | _ =>
      let call ← emit .apply
      bracket (← arguments items (← form head call)) next

def abstraction : List Form → NodeId → Lowering NodeId
  | .list params :: body, next => do
    let names ← parameters params
    let exit ← emit .ret
    let start ← sequence body exit
    emitClose names start next
  | _, _ => failure

def conditional : List Form → NodeId → Lowering NodeId
  | condition :: yes :: more, next => do
    let onTrue ← form yes next
    let onFalse ← alternative more next
    form condition (← emit (.test onTrue onFalse))
  | _, _ => failure

def assignment (declaring : Bool) : List Form → NodeId → Lowering NodeId
  | .atom name :: more, next => do
    let id ← target declaring name
    first more (← emit (.assign id next))
  | _, _ => failure

def sequence : List Form → NodeId → Lowering NodeId
  | [], next => return next
  | f :: rest, next => do form f (← sequence rest next)

def arguments : List Form → NodeId → Lowering NodeId
  | [], next => return next
  | f :: rest, next => do
    let after ← arguments rest next
    form f (← emit (.argument after))

def first : List Form → NodeId → Lowering NodeId
  | f :: _, next => form f next
  | [], _ => failure

/-- Lower the first form, or deliver the unspecified value if there is none. -/
def alternative : List Form → NodeId → Lowering NodeId
  | f :: _, next => form f next
  | [], next => emit (.constant .unspecified next)

end

/-- Lower all forms of a text, ending in a fresh halt; the code must then be valid. -/
def program (forms : List Form) : Lowering NodeId := do
  let entry ← sequence forms (← emit .halt)
  match (← get).code.defect? with
  | some _ => failure
  | none => return entry

end Lowering

end ClosureMachine
