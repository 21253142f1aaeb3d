import ClosureMachine.Heap

/-!
The control stack: a chain of stored call frames, the most recent first. A frame is never changed
once it is pushed, so any number of continuations may share the frames below it.
-/

namespace ClosureMachine

structure CallFrame where
  returnTo : NodeId
  env : Option EnvRef
  /-- The arguments collected before the call. -/
  rib : Slice Value
  link : Option FrameRef
  deriving DecidableEq, Repr

namespace CallFrame

def push (heap : Heap) (returnTo : NodeId) (env : Option EnvRef) (rib : List Value)
    (link : Option FrameRef) : Except ArenaError FrameRef × Heap :=
  let header : FrameHeader :=
    { returnTo, env := .ofRef? env, link := .ofRef? link,
      length := min rib.length (wordLimit - 1) }
  heap.allocWithTail header rib

def load? (heap : Heap) (top : FrameRef) : Option CallFrame :=
  (heap.get? top).map fun header =>
    { returnTo := header.returnTo
      env := header.env.resolve top.addr.generation
      rib := top.tail Cell Value header.length
      link := header.link.resolve top.addr.generation }

/-- The frames of the chain from `top`, the most recent first, after those in `acc`, if `fuel` steps
lead to its end. A chain ends with a frame that has no link or cannot be read. -/
def collect? (heap : Heap) :
    Nat → Option FrameRef → Array CallFrame → Option (Array CallFrame)
  | _, none, acc => some acc
  | 0, some _, _ => none
  | fuel + 1, some top, acc =>
    match load? heap top with
    | none => some acc
    | some frame => collect? heap fuel frame.link (acc.push frame)

/-- The frames on the chain from `top`, or nothing if the walk along it never ends. Frames of a
chain that ends take different blocks, so a walk that goes on for longer than there are blocks in
use goes round in a circle. -/
def chain? (heap : Heap) (top : Option FrameRef) : Option (Array CallFrame) :=
  collect? heap (heap.used + 1) top #[]

end CallFrame

end ClosureMachine
