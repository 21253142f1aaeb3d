import ClosureMachine.Keyword
import ClosureMachine.Value

/-!
Code: a growing table of instructions that name each other by position, and the parameter lists
that closures use. Nothing in the table ever changes, so an id means the same instruction for as
long as the table lives.
-/

namespace ClosureMachine

inductive Node where
  | halt
  | refer (var : SymbolId) (next : NodeId)
  | constant (value : Value) (next : NodeId)
  | close (formals : FormalsId) (body next : NodeId)
  | test (onTrue onFalse : NodeId)
  | assign (var : SymbolId) (next : NodeId)
  | conti (next : NodeId)
  /-- Make `stack` the control stack and return into it; with `var`, the value delivered is read
  from that binding first. -/
  | nuate (stack : Option FrameRef) (var : Option SymbolId)
  | frame (returnTo next : NodeId)
  | argument (next : NodeId)
  | apply
  | ret
  deriving DecidableEq, Repr, Inhabited

inductive Opcode where
  | halt
  | refer
  | constant
  | close
  | test
  | assign
  | conti
  | nuate
  | frame
  | argument
  | apply
  | ret
  deriving DecidableEq, Repr, Inhabited

namespace Opcode

def name : Opcode → String
  | halt => "halt"
  | refer => "refer"
  | constant => "constant"
  | close => "close"
  | test => "test"
  | assign => "assign"
  | conti => "conti"
  | nuate => "nuate"
  | frame => "frame"
  | argument => "argument"
  | apply => "apply"
  | ret => "return"

/-- The instruction a special form is compiled to; forms that only sequence other forms have
none of their own. -/
def ofKeyword? : Keyword → Option Opcode
  | .quote => some constant
  | .lambda => some close
  | .conditional => some test
  | .assign => some assign
  | .callCc => some conti
  | .invoke => some apply
  | .define | .sequence | .defineSyntax | .ellipsis | .underscore => none

end Opcode

namespace Node

def opcode : Node → Opcode
  | halt => .halt
  | refer .. => .refer
  | constant .. => .constant
  | close .. => .close
  | test .. => .test
  | assign .. => .assign
  | conti .. => .conti
  | nuate .. => .nuate
  | frame .. => .frame
  | argument .. => .argument
  | apply => .apply
  | ret => .ret

def successors : Node → List NodeId
  | refer _ next | constant _ next | assign _ next | conti next | argument next => [next]
  | close _ body next => [body, next]
  | test onTrue onFalse => [onTrue, onFalse]
  | frame returnTo next => [next, returnTo]
  | halt | nuate .. | apply | ret => []

end Node

/-- Instructions and parameter lists, each in order of registration. -/
structure Code where
  nodes : Array Node := #[]
  formals : Array (List SymbolId) := #[]
  deriving DecidableEq, Repr, Inhabited

namespace Code

def empty : Code := {}

def size (c : Code) : Nat := c.nodes.size

def isEmpty (c : Code) : Bool := c.nodes.isEmpty

def node? (c : Code) (id : NodeId) : Option Node := c.nodes[id]?

def formals? (c : Code) (id : FormalsId) : Option (List SymbolId) := c.formals[id]?

/-- The id of the newest instruction. Ids are words, so in empty code it is the largest word, which
no instruction has. -/
def newest (c : Code) : NodeId := (c.size + (wordLimit - 1)) % wordLimit

/-- Add an instruction; its id is its position, kept in one word. -/
def append (c : Code) (n : Node) : NodeId × Code :=
  (c.size % wordLimit, { c with nodes := c.nodes.push n })

/-- Register a parameter list; its id is its position, kept in one word. -/
def addFormals (c : Code) (names : List SymbolId) : FormalsId × Code :=
  (c.formals.size % wordLimit, { c with formals := c.formals.push names })

def addClose (c : Code) (names : List SymbolId) (body next : NodeId) : NodeId × Code :=
  let (f, c) := c.addFormals names
  c.append (.close f body next)

/-- A call that continues at `next` is a tail call when it would only return from there: it needs
no frame. -/
def isTail (c : Code) (next : NodeId) : Bool := c.node? next == some .ret

def toList (c : Code) : List (NodeId × Node) :=
  c.nodes.toList.zipIdx.map fun (n, i) => (i % wordLimit, n)

theorem append_nodes (c : Code) (n : Node) : (c.append n).2.nodes = c.nodes.push n := rfl

theorem append_formals (c : Code) (n : Node) : (c.append n).2.formals = c.formals := rfl

end Code

end ClosureMachine
