import ClosureMachine.CallStack
import ClosureMachine.Environment
import ClosureMachine.Globals
import ClosureMachine.Primitive

/-!
The state of the machine: an arena, global bindings, host procedures, five registers, the depth of
the control stack, counters, and the limit on instructions.
-/

namespace ClosureMachine

/-- Accumulator, next instruction, environment, arguments, and top of the control stack. -/
structure Registers where
  a : Value := .unspecified
  x : NodeId := 0
  e : Option EnvRef := none
  /-- The arguments collected so far, the latest first. -/
  collected : List Value := []
  s : Option FrameRef := none
  deriving DecidableEq, Repr, Inhabited

namespace Registers

/-- The argument rib, in the order in which the arguments were collected. -/
def r (regs : Registers) : List Value := regs.collected.reverse

def clearRib (regs : Registers) : Registers := { regs with collected := [] }

def setRib (regs : Registers) (rib : List Value) : Registers :=
  { regs with collected := rib.reverse }

def collect (regs : Registers) : Registers := { regs with collected := regs.a :: regs.collected }

@[simp] theorem r_clearRib (regs : Registers) : regs.clearRib.r = [] := rfl

@[simp] theorem r_setRib (regs : Registers) (rib : List Value) : (regs.setRib rib).r = rib := by
  simp [setRib, r]

@[simp] theorem r_collect (regs : Registers) : regs.collect.r = regs.r ++ [regs.a] := by
  simp [collect, r]

end Registers

structure Statistics where
  instructions : Nat := 0
  framesPushed : Nat := 0
  framesPopped : Nat := 0
  maxDepth : Nat := 0
  captured : Nat := 0
  invoked : Nat := 0
  deriving DecidableEq, Repr, Inhabited

structure Machine where
  heap : Heap
  globals : Globals := {}
  primitives : Array Primitive := #[]
  regs : Registers := {}
  depth : Nat := 0
  stats : Statistics := {}
  limit : Option Nat := none

namespace Machine

/-- A machine with an empty arena, built to settings that must be sound. -/
def create (settings : Settings) (gens : Generations) :
    Except MachineError (Machine × Generations) :=
  match settings.defect? with
  | some d => .error (.invalidSettings d)
  | none =>
    match settings.arena.build gens with
    | .error e => .error (.outOfMemory e)
    | .ok (heap, gens) => .ok ({ heap, limit := settings.exec.instructionLimit }, gens)

def defineGlobal (m : Machine) (symbols : SymbolTable) (name : String) (v : Value) :
    SymbolId × Machine × SymbolTable :=
  let (id, symbols) := symbols.intern name
  (id, { m with globals := m.globals.define id v }, symbols)

/-- Register a host procedure and bind its name to it. Its id is its position, kept in one word. -/
def definePrimitive (m : Machine) (symbols : SymbolTable) (name : String) (arity : Arity)
    (run : HostProcedure) : Value × Machine × SymbolTable :=
  let (id, symbols) := symbols.intern name
  let v := Value.primitive (m.primitives.size % wordLimit)
  (v,
    { m with
      primitives := m.primitives.push ⟨id, arity, run⟩
      globals := m.globals.define id v },
    symbols)

def primitive? (m : Machine) (id : PrimitiveId) : Option Primitive := m.primitives[id]?

/-- Where the frames on the control stack resume, the most recent first, if the stack has an end. -/
def backtrace? (m : Machine) : Option (List NodeId) :=
  (CallFrame.chain? m.heap m.regs.s).map fun frames => frames.toList.map CallFrame.returnTo

/-- Empty the arena for an unrelated evaluation. Globals that point into it are dropped, and the
registers are cleared. -/
def reset (m : Machine) (gens : Generations) : Except MachineError (Machine × Generations) :=
  match m.heap.reset gens with
  | .error e => .error (.outOfMemory e)
  | .ok (heap, gens) =>
    .ok ({ m with heap, globals := m.globals.immediates, regs := {}, depth := 0 }, gens)

/-- Point the machine at an instruction, with cleared registers and counters. -/
def start (m : Machine) (entry : NodeId) : Machine :=
  { m with regs := { x := entry }, depth := 0, stats := {} }

def continuationStack? (m : Machine) : Value → Option (Option FrameRef)
  | .continuation k => (m.heap.get? k).map Continuation.stack
  | _ => none

/-- The written form of a value, with symbols and host procedures by name where they have one. -/
def render (m : Machine) (symbols : SymbolTable) : Value → String
  | .symbol id => symbols.display id
  | .primitive id =>
    match (m.primitive? id).bind fun p => symbols.name? p.name with
    | some name => s!"#<primitive {name}>"
    | none => Value.text (.primitive id)
  | v => v.text

def errorText (m : Machine) (symbols : SymbolTable) (e : MachineError) : String :=
  e.message symbols.display (m.render symbols)

def describe (m : Machine) : String :=
  "Vm \x7b " ++
    s!"x: VmExpId({m.regs.x}), depth: {m.depth}, globals: {m.globals.size}, " ++
    s!"primitives: {m.primitives.size}, arena: {m.heap.describe}" ++ " \x7d"

end Machine

end ClosureMachine
