import ClosureMachine.Machine.Basic

/-!
Execution of one instruction. A step answers whether the machine goes on, has halted or has failed,
and always with the state that is left: a failed step may have changed the machine before it failed.
A step that never returns, for the chain it walks along has no end, is one that fails as endless.
Only the instruction that brackets a call pushes a frame, so a call without one runs in the stack
space of its caller.
-/

namespace ClosureMachine

inductive Progress where
  | running
  | halted (v : Value)
  deriving DecidableEq, Repr

namespace Machine

abbrev Result (α : Type) := Except MachineError α × Machine

def goto (m : Machine) (x : NodeId) : Machine := { m with regs := { m.regs with x } }

def setAccumulator (m : Machine) (a : Value) : Machine := { m with regs := { m.regs with a } }

def tick (m : Machine) : Machine :=
  { m with stats := { m.stats with instructions := m.stats.instructions + 1 } }

/-- The value of a variable: from the innermost frame that binds it, else from the globals. -/
def lookup (m : Machine) (code : Code) (var : SymbolId) : Except MachineError Value :=
  match Binding.find m.heap code m.regs.e var with
  | .slot values index =>
    match (m.heap.slice? values).bind (·[index]?) with
    | some v => .ok v
    | none => .error (.malformed .staleBindings)
  | .free =>
    match m.globals.get? var with
    | some v => .ok v
    | none => .error (.unboundVariable var)
  | .broken => .error (.malformed .staleEnvironment)
  | .endless => .error .endless

/-- Change the binding that `lookup` would read. A global must be bound already. -/
def assign (m : Machine) (code : Code) (var : SymbolId) (v : Value) : Result Unit :=
  match Binding.find m.heap code m.regs.e var with
  | .slot values index =>
    match m.heap.setAt values index v with
    | (.ok (), heap) => (.ok (), { m with heap })
    | (.error _, heap) => (.error (.malformed .staleBindings), { m with heap })
  | .free =>
    match m.globals.set? var v with
    | some globals => (.ok (), { m with globals })
    | none => (.error (.unboundVariable var), m)
  | .broken => (.error (.malformed .staleEnvironment), m)
  | .endless => (.error .endless, m)

/-- Save environment and arguments on the control stack and begin a new argument list. -/
def pushFrame (m : Machine) (returnTo : NodeId) : Result Unit :=
  match CallFrame.push m.heap returnTo m.regs.e m.regs.r m.regs.s with
  | (.error e, heap) => (.error (.outOfMemory e), { m with heap })
  | (.ok frame, heap) =>
    (.ok (),
      { m with
        heap
        regs := { m.regs.clearRib with s := some frame }
        depth := m.depth + 1
        stats :=
          { m.stats with
            framesPushed := m.stats.framesPushed + 1
            maxDepth := max m.stats.maxDepth (m.depth + 1) } })

/-- Resume at the top frame of the control stack, in the state it saved. -/
def popFrame (m : Machine) : Result Unit :=
  match m.regs.s with
  | none => (.error (.stackUnderflow m.regs.x), m)
  | some top =>
    match CallFrame.load? m.heap top with
    | none => (.error (.malformed .staleFrame), m)
    | some frame =>
      match m.heap.slice? frame.rib with
      | none => (.error (.malformed .staleArguments), m)
      | some rib =>
        (.ok (),
          { m with
            regs :=
              { m.regs.setRib rib with x := frame.returnTo, e := frame.env, s := frame.link }
            depth := m.depth - 1
            stats := { m.stats with framesPopped := m.stats.framesPopped + 1 } })

/-- Make a stack the control stack, of the depth given or else counted, and return into it. The
frames of a stack without an end are counted for ever. -/
def reinstate (m : Machine) (stack : Option FrameRef) (depth? : Option Nat) : Result Unit :=
  let m := { m with regs := { m.regs with s := stack } }
  match depth?.or ((CallFrame.chain? m.heap stack).map Array.size) with
  | none => (.error .endless, m)
  | some depth => popFrame { m with depth }

def capture (m : Machine) : Result Unit :=
  match m.heap.alloc (Continuation.mk m.regs.s m.depth) with
  | (.error e, heap) => (.error (.outOfMemory e), { m with heap })
  | (.ok k, heap) =>
    (.ok (),
      { m with
        heap
        regs := { m.regs with a := .continuation k }
        stats := { m.stats with captured := m.stats.captured + 1 } })

def makeClosure (m : Machine) (formals : FormalsId) (body : NodeId) : Result Unit :=
  match m.heap.alloc (Closure.mk formals body m.regs.e) with
  | (.error e, heap) => (.error (.outOfMemory e), { m with heap })
  | (.ok c, heap) => (.ok (), { m with heap, regs := { m.regs with a := .closure c } })

def applyClosure (m : Machine) (code : Code) (c : Ref Closure) : Result Unit :=
  match m.heap.get? c with
  | none => (.error (.malformed .staleClosure), m)
  | some closure =>
    match code.formals? closure.formals with
    | none => (.error (.malformed (.unknownFormals closure.formals)), m)
    | some names =>
      if names.length ≠ m.regs.r.length then
        (.error (.arityMismatch (.closure c) (.exactly names.length) m.regs.r.length), m)
      else
        match EnvFrame.bind m.heap closure.formals m.regs.r closure.env with
        | (.error e, heap) => (.error (.outOfMemory e), { m with heap })
        | (.ok env, heap) =>
          (.ok (),
            { m with
              heap
              regs := { m.regs.clearRib with e := some env, x := closure.body } })

def applyContinuation (m : Machine) (k : Ref Continuation) : Result Unit :=
  match m.heap.get? k with
  | none => (.error (.malformed .staleContinuation), m)
  | some cont =>
    match m.regs.r with
    | [v] =>
      reinstate
        { m with
          regs := { m.regs with a := v }
          stats := { m.stats with invoked := m.stats.invoked + 1 } }
        cont.stack (some cont.depth)
    | r => (.error (.arityMismatch (.continuation k) (.exactly 1) r.length), m)

def applyPrimitive (m : Machine) (id : PrimitiveId) : Result Unit :=
  match m.primitive? id with
  | none => (.error (.malformed (.unknownPrimitive id)), m)
  | some p =>
    if p.arity.accepts m.regs.r.length then
      match p.run m.regs.r with
      | .error e => (.error e, m)
      | .ok v => popFrame (m.setAccumulator v)
    else (.error (.arityMismatch (.primitive id) p.arity m.regs.r.length), m)

def apply (m : Machine) (code : Code) : Result Unit :=
  match m.regs.a with
  | .closure c => m.applyClosure code c
  | .continuation k => m.applyContinuation k
  | .primitive id => m.applyPrimitive id
  | v => (.error (.notCallable v), m)

/-- After a successful action, go on at `next`. -/
def andGoto (next : NodeId) : Result Unit → Result Progress
  | (.error e, m) => (.error e, m)
  | (.ok (), m) => (.ok .running, m.goto next)

/-- After a successful action, go on where it left control. -/
def andContinue : Result Unit → Result Progress
  | (.error e, m) => (.error e, m)
  | (.ok (), m) => (.ok .running, m)

def execute (m : Machine) (code : Code) : Node → Result Progress
  | .halt => (.ok (.halted m.regs.a), m)
  | .refer var next =>
    match m.lookup code var with
    | .error e => (.error e, m)
    | .ok v => (.ok .running, (m.setAccumulator v).goto next)
  | .constant v next => (.ok .running, (m.setAccumulator v).goto next)
  | .close formals body next => andGoto next (m.makeClosure formals body)
  | .test onTrue onFalse =>
    (.ok .running, m.goto (if m.regs.a.isTruthy then onTrue else onFalse))
  | .assign var next => andGoto next (m.assign code var m.regs.a)
  | .conti next => andGoto next m.capture
  | .nuate stack none => andContinue (m.reinstate stack none)
  | .nuate stack (some var) =>
    match m.lookup code var with
    | .error e => (.error e, m)
    | .ok v => andContinue ((m.setAccumulator v).reinstate stack none)
  | .frame returnTo next => andGoto next (m.pushFrame returnTo)
  | .argument next => (.ok .running, { m with regs := { m.regs.collect with x := next } })
  | .apply => andContinue (m.apply code)
  | .ret => andContinue m.popFrame

/-- The limit, when the run has used it up. -/
def exhaustedLimit? (m : Machine) : Option Nat :=
  m.limit.filter (· ≤ m.stats.instructions)

/-- Execute the next instruction. One that the limit forbids or that does not exist is not
counted. -/
def step (m : Machine) (code : Code) : Result Progress :=
  match m.exhaustedLimit? with
  | some limit => (.error (.instructionLimitExceeded limit), m)
  | none =>
    match code.node? m.regs.x with
    | none => (.error (.malformed (.outOfRange m.regs.x code.size)), m)
    | some node => m.tick.execute code node

end Machine

end ClosureMachine
