import ClosureMachine.Primitive
import ClosureMachine.Proofs.Meaning.Expr

/-!
The meaning of expressions, without a machine. A world has frames of mutable bindings and globals,
both by name; a scope lists the frames that are visible, the innermost first. Evaluation goes by
steps: either an expression is evaluated in a pending context, or a value is delivered to one.
Arguments are evaluated from left to right and then the operator. A context is a value like any
other, so it may be entered again as often as one likes. There is no arena and nothing runs out.
-/

namespace ClosureMachine

/-- Numbers of the visible frames, the innermost first. -/
abbrev Scope := List Nat

mutual

/-- What expressions evaluate to. -/
inductive Content where
  | datum (d : Datum)
  | closure (params : List String) (body : List Expr) (scope : Scope)
  | continuation (k : Context)
  /-- A host procedure, by its position. -/
  | procedure (i : Fin Arithmetic.procedures.length)

/-- What is still to be done when a value is there. -/
inductive Context where
  | done
  | sequence (rest : List Expr) (scope : Scope) (k : Context)
  | branch (yes no : Expr) (scope : Scope) (k : Context)
  | store (name : String) (scope : Scope) (k : Context)
  /-- The value is an argument; those before it have been collected. -/
  | argument (collected : List Content) (rest : List Expr) (operator : Expr) (scope : Scope)
    (k : Context)
  /-- The value is the operator. -/
  | operator (args : List Content) (k : Context)

end

namespace Content

/-- Only the false constant is false. -/
def isFalse : Content → Bool
  | .datum (.bool false) => true
  | _ => false

/-- Closures and continuations do not outlast the frames that they may refer to. -/
def outlasts : Content → Bool
  | .datum _ | .procedure _ => true
  | .closure .. | .continuation _ => false

/-- What a host procedure sees: a number, or something that is none. -/
def seen : Content → Value
  | .datum (.int n) => .int n
  | _ => .unspecified

/-- What a host procedure may answer with. -/
def answered : Value → Content
  | .int n => .datum (.int n)
  | .bool b => .datum (.bool b)
  | _ => .datum .unspecified

end Content

/-- A frame: names and as many contents. -/
structure Bindings where
  names : List String
  contents : List Content

structure World where
  frames : List Bindings := []
  globals : String → Option Content

namespace World

/-- The innermost binding of a name: its frame and its place there. -/
def find (w : World) (name : String) : Scope → Option (Nat × Nat)
  | [] => none
  | n :: scope =>
    match (w.frames[n]?).bind fun b => b.names.idxOf? name with
    | some i => some (n, i)
    | none => find w name scope

def lookup (w : World) (name : String) (scope : Scope) : Option Content :=
  match w.find name scope with
  | some (n, i) => (w.frames[n]?).bind fun b => b.contents[i]?
  | none => w.globals name

/-- The world with another content at one place of a frame. -/
def setLocal (w : World) (n i : Nat) (v : Content) : World :=
  { w with frames := w.frames.modify n fun b => { b with contents := b.contents.set i v } }

def setGlobal (w : World) (name : String) (v : Content) : World :=
  { w with globals := fun other => if other = name then some v else w.globals other }

/-- Change the binding that `lookup` reads; there must be one. -/
def assign (w : World) (name : String) (v : Content) (scope : Scope) : Option World :=
  match w.find name scope with
  | some (n, i) => some (w.setLocal n i v)
  | none => (w.globals name).map fun _ => w.setGlobal name v

/-- The world with one more frame. -/
def enlarge (w : World) (names : List String) (contents : List Content) : World :=
  { w with frames := w.frames ++ [⟨names, contents⟩] }

/-- Make names global; those that were unbound have no particular content. -/
def declare (w : World) (names : List String) : World :=
  { w with
    globals := fun name =>
      (w.globals name).or (if name ∈ names then some (.datum .unspecified) else none) }

/-- All frames are given up, and globals keep what outlasts them. -/
def forget (w : World) : World where
  globals name := (w.globals name).filter Content.outlasts

/-- At first there are the host procedures. -/
def initial : World where
  globals name := (Arithmetic.procedures.findFinIdx? (·.1 = name)).map .procedure

end World

/-- Why an evaluation fails. -/
inductive Fault where
  | unbound (name : String)
  | notCallable (v : Content)
  | arity (callee : Content) (expected : Arity) (actual : Nat)
  /-- Reported by a host procedure. -/
  | failed (e : MachineError)

inductive Outcome where
  | value (v : Content)
  | fault (f : Fault)

inductive Focus where
  | eval (e : Expr) (scope : Scope) (k : Context)
  | deliver (v : Content) (k : Context)

namespace Focus

/-- Begin to evaluate expressions one after the other; the last one is evaluated in the context of
all. -/
def enter (scope : Scope) (k : Context) : List Expr → Focus
  | [] => .deliver (.datum .unspecified) k
  | [e] => .eval e scope k
  | e :: rest => .eval e scope (.sequence rest scope k)

/-- Go on with a call: the next argument, or else the operator. -/
def collect (collected : List Content) (operator : Expr) (scope : Scope) (k : Context) :
    List Expr → Focus
  | [] => .eval operator scope (.operator collected k)
  | e :: rest => .eval e scope (.argument collected rest operator scope k)

end Focus

structure Config where
  focus : Focus
  world : World

inductive Transition where
  | next (c : Config)
  | stop (o : Outcome)

namespace World

def eval (w : World) (scope : Scope) (k : Context) : Expr → Transition
  | .literal d => .next ⟨.deliver (.datum d) k, w⟩
  | .variable name =>
    match w.lookup name scope with
    | some v => .next ⟨.deliver v k, w⟩
    | none => .stop (.fault (.unbound name))
  | .lambda params body => .next ⟨.deliver (.closure params body scope) k, w⟩
  | .conditional condition yes no => .next ⟨.eval condition scope (.branch yes no scope k), w⟩
  | .assign name e | .define name e => .next ⟨.eval e scope (.store name scope k), w⟩
  | .sequence es => .next ⟨.enter scope k es, w⟩
  | .callCc e => .next ⟨.eval e scope (.operator [.continuation k] k), w⟩
  | .call operator args => .next ⟨.collect [] operator scope k args, w⟩

def apply (w : World) (args : List Content) (k : Context) : Content → Transition
  | .closure params body scope =>
    if params.length = args.length then
      .next ⟨.enter (w.frames.length :: scope) k body, w.enlarge params args⟩
    else
      .stop (.fault (.arity (.closure params body scope) (.exactly params.length) args.length))
  | .continuation k' =>
    match args with
    | [v] => .next ⟨.deliver v k', w⟩
    | _ => .stop (.fault (.arity (.continuation k') (.exactly 1) args.length))
  | .procedure i =>
    let (_, arity, run) := Arithmetic.procedures.get i
    if arity.accepts args.length then
      match run (args.map Content.seen) with
      | .ok v => .next ⟨.deliver (.answered v) k, w⟩
      | .error e => .stop (.fault (.failed e))
    else .stop (.fault (.arity (.procedure i) arity args.length))
  | .datum d => .stop (.fault (.notCallable (.datum d)))

def deliver (w : World) (v : Content) : Context → Transition
  | .done => .stop (.value v)
  | .sequence rest scope k => .next ⟨.enter scope k rest, w⟩
  | .branch yes no scope k => .next ⟨.eval (if v.isFalse then no else yes) scope k, w⟩
  | .store name scope k =>
    match w.assign name v scope with
    | some w' => .next ⟨.deliver v k, w'⟩
    | none => .stop (.fault (.unbound name))
  | .argument collected rest operator scope k =>
    .next ⟨.collect (collected ++ [v]) operator scope k rest, w⟩
  | .operator args k => w.apply args k v

end World

namespace Config

def step (c : Config) : Transition :=
  match c.focus with
  | .eval e scope k => c.world.eval scope k e
  | .deliver v k => c.world.deliver v k

inductive Reaches : Config → Config → Prop
  | refl {c : Config} : Reaches c c
  | step {c c' c'' : Config} : c.step = .next c' → Reaches c' c'' → Reaches c c''

end Config

namespace World

/-- A program is evaluated in no scope; what it defines is made global first. -/
def start (w : World) (es : List Expr) : Config :=
  ⟨.enter [] .done es, w.declare (Expr.definedAll es)⟩

end World

end ClosureMachine
