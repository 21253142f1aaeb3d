import ClosureMachine.Event
import ClosureMachine.Machine.Run

/-!
What an observer of the machine and its arena is told. Events are functions of states and
outcomes; nothing of them is kept in the machine, so observing a run cannot change it.
-/

namespace ClosureMachine

def ArenaError.events : ArenaError → List Event
  | .outOfMemory requested remaining capacity =>
    [⟨.warn, "arena exhausted",
      [("requested", toString requested), ("remaining", toString remaining),
        ("capacity", toString capacity)]⟩]
  | _ => []

def Arena.resetEvent {β : Type} (a : Arena β) : Event :=
  ⟨.debug, "arena reset",
    [("released_blocks", toString a.used), ("high_water_blocks", toString a.highWater)]⟩

namespace Machine

def createdEvent (m : Machine) : Event :=
  let limit := match m.limit with
    | none => "None"
    | some n => s!"Some({n})"
  ⟨.debug, "vm created",
    [("capacity_blocks", toString m.heap.capacity), ("instruction_limit", limit)]⟩

def resetEvents (m : Machine) : List Event :=
  [m.heap.resetEvent,
    ⟨.debug, "vm reset",
      [("dropped_globals", toString (m.globals.size - m.globals.immediates.size))]⟩]

/-- The instruction that a step from state `m` executes, if it executes one. -/
def announcement (m : Machine) (code : Code) : List Event :=
  match m.exhaustedLimit?, code.node? m.regs.x with
  | none, some node =>
    [⟨.trace, "step", [("x", toString m.regs.x), ("op", node.opcode.name)]⟩]
  | _, _ => []

def outcomeEvents : Except MachineError Progress → List Event
  | .error (.outOfMemory cause) => cause.events
  | .error (.arityMismatch (.continuation _) _ actual) =>
    [⟨.warn, "continuation invoked with wrong argument count", [("args", toString actual)]⟩]
  | _ => []

def stepEvents (m : Machine) (code : Code) (outcome : Except MachineError Progress) :
    List Event :=
  m.announcement code ++ outcomeEvents outcome

/-- All events of single steps that start in state `m`, each with the state after it. -/
def traceEvents (m : Machine) (code : Code) :
    List (Except MachineError Progress × Machine) → List Event
  | [] => []
  | (outcome, next) :: rest => m.stepEvents code outcome ++ next.traceEvents code rest

def startedEvent (code : Code) (entry : NodeId) (deadline : Bool) : Event :=
  if deadline then ⟨.debug, "vm run started with deadline", [("entry", toString entry)]⟩
  else ⟨.debug, "vm run started", [("entry", toString entry), ("nodes", toString code.size)]⟩

/-- The end of a run in state `m`. Overflow inside a host procedure ends it without a report, and a
run that does not return has no end. -/
def finishedEvents (m : Machine) (symbols : SymbolTable) :
    Except MachineError Value → List Event
  | .ok _ =>
    [⟨.debug, "vm halted",
      [("instructions", toString m.stats.instructions),
        ("frames_pushed", toString m.stats.framesPushed),
        ("max_frame_depth", toString m.stats.maxDepth)]⟩]
  | .error (.overflow _) | .error .endless => []
  | .error e =>
    if e.isFatal then
      [⟨.error, "fatal vm error",
        [("error", m.errorText symbols e), ("x", toString m.regs.x),
          ("depth", toString m.depth)]⟩]
    else
      [⟨.debug, "vm run failed",
        [("error", m.errorText symbols e), ("x", toString m.regs.x)]⟩]

/-- The events of `proceed`, after those in `acc`, as far as an observer at `threshold` is shown
them. -/
def observe (code : Code) (expired : Nat → Bool) (threshold : Level) :
    Nat → Machine → Array Event → Array Event
  | 0, _, acc => acc
  | fuel + 1, m, acc =>
    if m.stats.instructions % clockInterval == 0 && expired m.stats.instructions then acc
    else
      let acc := acc ++ ((m.announcement code).filter (·.shownAt threshold)).toArray
      let (outcome, m) := m.step code
      let acc := acc ++ ((outcomeEvents outcome).filter (·.shownAt threshold)).toArray
      match outcome with
      | .ok .running => observe code expired threshold fuel m acc
      | _ => acc

def runEvents (m : Machine) (code : Code) (symbols : SymbolTable) (entry : NodeId)
    (expired : Nat → Bool) (deadline : Bool) (threshold : Level) (fuel : Nat) : List Event :=
  let (result, last) := m.runUntil code entry expired fuel
  let during := observe code expired threshold fuel (m.start entry) #[]
  let after := match result with
    | some r => last.finishedEvents symbols r
    | none => []
  ([startedEvent code entry deadline].filter (·.shownAt threshold)) ++ during.toList ++
    after.filter (·.shownAt threshold)

end Machine

end ClosureMachine
