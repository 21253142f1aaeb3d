import ClosureMachine.Code.Basic
import ClosureMachine.Heap

/-!
Lexical environments: chains of stored frames, innermost first. A frame binds the names of one
parameter list to as many values. Looking a name up walks the chain to the first frame whose list
holds it.
-/

namespace ClosureMachine

structure EnvFrame where
  names : FormalsId
  values : Slice Value
  parent : Option EnvRef
  deriving DecidableEq, Repr

namespace EnvFrame

def bind (heap : Heap) (names : FormalsId) (values : List Value) (parent : Option EnvRef) :
    Except ArenaError EnvRef × Heap :=
  let header : EnvHeader :=
    { names, parent := .ofRef? parent, length := min values.length (wordLimit - 1) }
  heap.allocWithTail header values

def load? (heap : Heap) (env : EnvRef) : Option EnvFrame :=
  (heap.get? env).map fun header =>
    { names := header.names
      values := env.tail Cell Value header.length
      parent := header.parent.resolve env.addr.generation }

end EnvFrame

inductive Binding where
  | slot (values : Slice Value) (index : Nat)
  | free
  /-- A frame of the chain or its parameter list cannot be read. -/
  | broken
  /-- The walk along the chain never ends. -/
  | endless
  deriving DecidableEq, Repr

def Binding.search (heap : Heap) (code : Code) (var : SymbolId) :
    Nat → Option EnvRef → Binding
  | _, none => .free
  | 0, some _ => .endless
  | fuel + 1, some env =>
    match EnvFrame.load? heap env with
    | none => .broken
    | some frame =>
      match code.formals? frame.names with
      | none => .broken
      | some names =>
        match names.idxOf? var with
        | some index => .slot frame.values index
        | none => search heap code var fuel frame.parent

/-- The innermost binding of `var`. A walk that goes on for longer than there are blocks in use
goes round in a circle. -/
def Binding.find (heap : Heap) (code : Code) (env : Option EnvRef) (var : SymbolId) : Binding :=
  search heap code var (heap.used + 1) env

end ClosureMachine
