import ClosureMachine.Machine.Error

/-!
Host procedures. They receive the argument list and answer with a value or an error; they see
nothing else of the machine. Here are integer arithmetic, checked to stay within 64 bits, and
procedures that look at their arguments without computing with them.
-/

namespace ClosureMachine

/-- A host procedure's action on its arguments. -/
abbrev HostProcedure := List Value → Except MachineError Value

structure Primitive where
  name : SymbolId
  arity : Arity
  run : HostProcedure

/-- Name and arity on one line. -/
def Primitive.describe (p : Primitive) : String :=
  "Primitive \x7b " ++ s!"name: IntStr({p.name}), arity: {p.arity.describe}" ++ " \x7d"

/-- Whether `rel` holds of all neighbours. -/
def adjacent {α : Type} (rel : α → α → Bool) : List α → Bool
  | x :: y :: rest => rel x y && adjacent rel (y :: rest)
  | _ => true

namespace Arithmetic

def integers (name : String) (args : List Value) : Except MachineError (List Int64) :=
  args.mapM fun v =>
    match v.asInt? with
    | some n => .ok n
    | none => .error (.primitiveFailed name "expected integer")

/-- The result of an operation, if it fits in 64 bits. -/
def checked (op : CheckedOp) (n : Int) : Except MachineError Int64 :=
  match int64? n with
  | some n => .ok n
  | none => .error (.overflow op)

def sum (ns : List Int64) : Except MachineError Int64 :=
  ns.foldlM (fun acc n => checked .add (acc.toInt + n.toInt)) 0

/-- The negation of a single number, or the first number less all others. -/
def difference : List Int64 → Except MachineError Int64
  | [] => .ok 0
  | [n] => checked .negate (-n.toInt)
  | first :: rest => rest.foldlM (fun acc n => checked .subtract (acc.toInt - n.toInt)) first

def add : HostProcedure := fun args => do return .int (← sum (← integers "+" args))

def subtract : HostProcedure := fun args => do return .int (← difference (← integers "-" args))

def equal : HostProcedure := fun args => do
  return .bool (adjacent (fun m n => m.toInt == n.toInt) (← integers "=" args))

def less : HostProcedure := fun args => do
  return .bool (adjacent (fun m n => m.toInt < n.toInt) (← integers "<" args))

/-- The procedures a session starts with: name, arity and action. -/
def procedures : List (String × Arity × HostProcedure) :=
  [("+", .atLeast 0, add), ("-", .atLeast 1, subtract), ("=", .atLeast 1, equal),
    ("<", .atLeast 1, less)]

end Arithmetic

namespace Inspection

def first : HostProcedure := fun args => .ok (args.headD .unspecified)

def last : HostProcedure := fun args => .ok (args.getLastD .unspecified)

def count : HostProcedure := fun args => .ok (.int (Int64.ofNat args.length))

def allTruthy : HostProcedure := fun args => .ok (.bool (args.all Value.isTruthy))

def allProcedures : HostProcedure := fun args => .ok (.bool (args.all Value.isProcedure))

def allSame : HostProcedure := fun args => .ok (.bool (adjacent Value.same args))

def refuse : HostProcedure := fun _ => .error (.primitiveFailed "fail" "refused")

/-- Declares the code broken. -/
def condemn : HostProcedure := fun _ => .error (.malformed (.reported "from host"))

end Inspection

end ClosureMachine
