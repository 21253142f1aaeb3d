import ClosureMachine.Lowering
import ClosureMachine.Machine.Run

/-!
Sessions: a machine with its code and its keywords, kept together so that closures and
continuations outlive the evaluation that made them. The symbol table is passed in and out, since
several sessions may share one.
-/

namespace ClosureMachine

structure Session where
  machine : Machine
  code : Code := {}
  keywords : Keywords

inductive SessionError where
  /-- The text cannot be read or lowered. -/
  | badSource
  | failed (e : MachineError)
  deriving DecidableEq, Repr

namespace Session

def equip (m : Machine) (symbols : SymbolTable) :
    List (String × Arity × HostProcedure) → Machine × SymbolTable
  | [] => (m, symbols)
  | (name, arity, run) :: rest =>
    let (_, m, symbols) := m.definePrimitive symbols name arity run
    equip m symbols rest

/-- A session with empty code, and with the given host procedures. -/
def create (settings : Settings) (procedures : List (String × Arity × HostProcedure))
    (symbols : SymbolTable) (gens : Generations) :
    Except MachineError (Session × Generations) × SymbolTable :=
  let (keywords, symbols) := Keywords.intern symbols
  match Machine.create settings gens with
  | .error e => (.error e, symbols)
  | .ok (m, gens) =>
    let (machine, symbols) := equip m symbols procedures
    (.ok ({ machine, keywords }, gens), symbols)

/-- Lower a source text to the end of the session's code. The answer is its entry, or nothing if
the text is malformed; what was interned, declared and written until then stays. -/
def compile (s : Session) (symbols : SymbolTable) (source : String) :
    Option NodeId × Session × SymbolTable :=
  match Form.readAll? source with
  | none => (none, s, symbols)
  | some forms =>
    let w : Workspace := ⟨symbols, s.keywords, s.code, s.machine.globals⟩
    let (entry, w) := (Lowering.program forms).run w
    (entry, { s with code := w.code, machine := { s.machine with globals := w.globals } },
      w.symbols)

def run (s : Session) (entry : NodeId) (expired : Nat → Bool) (fuel : Nat) :
    Option (Except MachineError Value) × Session :=
  let (result, machine) := s.machine.runUntil s.code entry expired fuel
  (result, { s with machine })

def eval (s : Session) (symbols : SymbolTable) (source : String) (fuel : Nat) :
    Option (Except SessionError Value) × Session × SymbolTable :=
  match s.compile symbols source with
  | (none, s, symbols) => (some (.error .badSource), s, symbols)
  | (some entry, s, symbols) =>
    let (result, s) := s.run entry (fun _ => false) fuel
    (result.map fun r => r.mapError .failed, s, symbols)

end Session

end ClosureMachine
