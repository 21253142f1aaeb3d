import ClosureMachine.Proofs.Heap.Respelling
import ClosureMachine.Proofs.Machine.Procedures
import ClosureMachine.Proofs.Machine.Renaming

/-!
A machine with other ids for its symbols, `Machine.respelled σ`, does over respelled code what the
machine does over the code itself: respelling beforehand or after a step is the same
(`respelled_step`), and so for whole runs (`respelled_proceed`). This holds for every injective `σ`
as long as the host procedures take no notice of ids. So the numbers that symbols have decide
nothing.
-/

namespace ClosureMachine

/-! ## The parts of a machine -/

def Registers.respell (σ : SymbolId → SymbolId) (regs : Registers) : Registers :=
  { regs with a := regs.a.respell σ, collected := regs.collected.map (Value.respell σ) }

def Globals.respell (σ : SymbolId → SymbolId) (g : Globals) : Globals :=
  ⟨g.bindings.map fun b => (σ b.1, b.2.respell σ)⟩

def Primitive.respell (σ : SymbolId → SymbolId) (p : Primitive) : Primitive :=
  { p with name := σ p.name }

def Progress.respell (σ : SymbolId → SymbolId) : Progress → Progress
  | running => running
  | halted v => halted (v.respell σ)

/-- The error with the symbols that a run can put into it respelled. -/
def MachineError.respell (σ : SymbolId → SymbolId) : MachineError → MachineError
  | unboundVariable id => unboundVariable (σ id)
  | notCallable v => notCallable (v.respell σ)
  | arityMismatch callee expected actual => arityMismatch (callee.respell σ) expected actual
  | e => e

/-- The outcome with the symbols in its error respelled, and its value by `f`. -/
def respellOutcome {α : Type} (σ : SymbolId → SymbolId) (f : α → α) :
    Except MachineError α → Except MachineError α
  | .ok a => .ok (f a)
  | .error e => .error (e.respell σ)

/-- The procedure takes no notice of ids: respelled arguments get the respelled answer. -/
def Primitive.Oblivious (σ : SymbolId → SymbolId) (p : Primitive) : Prop :=
  ∀ args, p.run (args.map (Value.respell σ)) = respellOutcome σ (Value.respell σ) (p.run args)

/-- The arithmetic procedures see numbers only, and answer with scalars. -/
theorem Arithmetic.oblivious_procedures {p : String × Arity × HostProcedure}
    (hp : p ∈ Arithmetic.procedures) (σ : SymbolId → SymbolId) (name : SymbolId) :
    (Primitive.mk name p.2.1 p.2.2).Oblivious σ := by
  intro args
  change p.2.2 (args.map (Value.respell σ)) = respellOutcome σ (Value.respell σ) (p.2.2 args)
  rw [procedures_map p hp (f := Value.respell σ) fun v => by cases v <;> rfl]
  have ht := tame_procedures p hp args
  cases hr : p.2.2 args with
  | ok v =>
    rw [hr] at ht
    cases v with
    | int n => rfl
    | bool b => rfl
    | _ => exact ht.elim
  | error e =>
    rw [hr] at ht
    cases e with
    | primitiveFailed name message => rfl
    | overflow op => rfl
    | _ => exact ht.elim

namespace Globals

variable {σ : SymbolId → SymbolId} (hσ : Function.Injective σ)
include hσ

theorem get?_respell (g : Globals) (var : SymbolId) :
    (g.respell σ).get? (σ var) = (g.get? var).map (Value.respell σ) := by
  obtain ⟨bs⟩ := g
  simp only [respell, get?]
  induction bs with
  | nil => rfl
  | cons b bs ih =>
    rw [List.map_cons, List.lookup_cons, List.lookup_cons, ih, hσ.beq_eq]
    cases var == b.1 <;> rfl

theorem contains_respell (g : Globals) (var : SymbolId) :
    (g.respell σ).contains (σ var) = g.contains var := by
  rw [contains, contains, get?_respell hσ, Option.isSome_map]

theorem replace_respell (var : SymbolId) (v : Value) (bs : List (SymbolId × Value)) :
    replace (σ var) (v.respell σ) (bs.map fun b => (σ b.1, b.2.respell σ)) =
      (replace var v bs).map fun b => (σ b.1, b.2.respell σ) := by
  induction bs with
  | nil => rfl
  | cons b bs ih =>
    simp only [List.map_cons, replace, ih, hσ.beq_eq]
    cases var == b.1 <;> rfl

theorem set?_respell (g : Globals) (var : SymbolId) (v : Value) :
    (g.respell σ).set? (σ var) (v.respell σ) = (g.set? var v).map (respell σ) := by
  simp only [set?, contains_respell hσ]
  split
  · exact congrArg some (congrArg Globals.mk (replace_respell hσ var v g.bindings))
  · rfl

theorem define_respell (g : Globals) (var : SymbolId) (v : Value) :
    (g.respell σ).define (σ var) (v.respell σ) = (g.define var v).respell σ := by
  simp only [define, contains_respell hσ]
  split
  · exact congrArg Globals.mk (replace_respell hσ var v g.bindings)
  · simp only [respell, List.map_append, List.map_cons, List.map_nil]

end Globals

namespace Machine

variable {σ : SymbolId → SymbolId} {m : Machine} {code : Code}

/-- The machine with all its symbols respelled. -/
def respelled (σ : SymbolId → SymbolId) (m : Machine) : Machine :=
  { m with
    heap := m.heap.respelled σ
    globals := m.globals.respell σ
    primitives := m.primitives.map (Primitive.respell σ)
    regs := m.regs.respell σ }

/-- The outcome and the state of an action with all their symbols respelled. -/
def respelledResult {α : Type} (σ : SymbolId → SymbolId) (f : α → α) (r : Result α) : Result α :=
  (respellOutcome σ f r.1, r.2.respelled σ)

section

variable (σ) (m : Machine)

@[simp] theorem respelled_heap : (m.respelled σ).heap = m.heap.respelled σ := rfl

@[simp] theorem respelled_globals : (m.respelled σ).globals = m.globals.respell σ := rfl

@[simp] theorem respelled_a : (m.respelled σ).regs.a = m.regs.a.respell σ := rfl

@[simp] theorem respelled_x : (m.respelled σ).regs.x = m.regs.x := rfl

@[simp] theorem respelled_e : (m.respelled σ).regs.e = m.regs.e := rfl

@[simp] theorem respelled_s : (m.respelled σ).regs.s = m.regs.s := rfl

@[simp] theorem respelled_r : (m.respelled σ).regs.r = m.regs.r.map (Value.respell σ) := by
  simp [respelled, Registers.r, Registers.respell]

theorem primitive?_respelled (i : PrimitiveId) :
    (m.respelled σ).primitive? i = (m.primitive? i).map (Primitive.respell σ) :=
  Array.getElem?_map

end

/-! ## Actions -/

theorem respelled_withClosure (m : Machine) (formals : FormalsId) (body : NodeId) :
    (m.respelled σ).withClosure formals body = (m.withClosure formals body).respelled σ := by
  have hh := m.heap.respelled_extend σ [.closure ⟨formals, body, m.regs.e⟩]
  simp only [withClosure, respelled, ← hh, Heap.respelled_used, Heap.respelled_generation]
  rfl

theorem respelled_withContinuation (m : Machine) :
    (m.respelled σ).withContinuation = m.withContinuation.respelled σ := by
  have hh := m.heap.respelled_extend σ [.continuation ⟨m.regs.s, m.depth⟩]
  simp only [withContinuation, respelled, ← hh, Heap.respelled_used, Heap.respelled_generation]
  rfl

theorem respelled_pushed (m : Machine) (returnTo : NodeId) :
    (m.respelled σ).pushed returnTo = (m.pushed returnTo).respelled σ := by
  have hh := m.heap.respelled_extend σ
    (.frame ⟨returnTo, .ofRef? m.regs.e, .ofRef? m.regs.s, m.regs.r.length⟩ ::
      m.regs.r.map .value)
  rw [Heap.map_respell_values σ _ rfl] at hh
  simp only [pushed, respelled_r, respelled_e, respelled_s, List.length_map, respelled_heap, hh,
    Heap.respelled_used, Heap.respelled_generation]
  rfl

theorem respelled_entered (m : Machine) (c : Closure) :
    (m.respelled σ).entered c = (m.entered c).respelled σ := by
  have hh := m.heap.respelled_extend σ
    (.environment ⟨c.formals, .ofRef? c.env, m.regs.r.length⟩ :: m.regs.r.map .value)
  rw [Heap.map_respell_values σ _ rfl] at hh
  simp only [entered, respelled_r, List.length_map, respelled_heap, hh, Heap.respelled_used,
    Heap.respelled_generation]
  rfl

theorem respelled_makeClosure (m : Machine) (formals : FormalsId) (body : NodeId) :
    (m.respelled σ).makeClosure formals body =
      respelledResult σ id (m.makeClosure formals body) := by
  rw [makeClosure_eq, makeClosure_eq, respelled_heap, Heap.respelled_remaining,
    respelled_withClosure]
  split <;> rfl

theorem respelled_capture (m : Machine) :
    (m.respelled σ).capture = respelledResult σ id m.capture := by
  rw [capture_eq, capture_eq, respelled_heap, Heap.respelled_remaining, respelled_withContinuation]
  split <;> rfl

theorem respelled_pushFrame (hw : m.heap.capacity < wordLimit) (returnTo : NodeId) :
    (m.respelled σ).pushFrame returnTo = respelledResult σ id (m.pushFrame returnTo) := by
  have hw' : (m.respelled σ).heap.capacity < wordLimit := hw
  rw [pushFrame_eq hw, pushFrame_eq hw', respelled_pushed, respelled_heap,
    Heap.respelled_remaining, respelled_r, List.length_map]
  split <;> rfl

theorem respelled_popFrame (m : Machine) :
    (m.respelled σ).popFrame = respelledResult σ id m.popFrame := by
  cases hs : m.regs.s with
  | none =>
    rw [popFrame_of_none hs, popFrame_of_none ((respelled_s σ m).trans hs)]
    rfl
  | some top =>
    simp only [popFrame, hs, respelled_s, respelled_heap, CallFrame.load?_respelled]
    cases CallFrame.load? m.heap top with
    | none => rfl
    | some frame =>
      simp only [Heap.slice?_respelled]
      cases m.heap.slice? frame.rib with
      | none => rfl
      | some rib =>
        simp [respelledResult, respellOutcome, respelled, Registers.setRib, Registers.respell]

theorem respelled_reinstate (m : Machine) (stack : Option FrameRef) :
    (m.respelled σ).reinstate stack none = respelledResult σ id (m.reinstate stack none) := by
  have hstate : (m.respelled σ).reinstated stack = (m.reinstated stack).respelled σ := by
    simp only [reinstated, respelled_heap, CallFrame.chain?_respelled]
    rfl
  rw [reinstate_none_eq, reinstate_none_eq, respelled_heap, CallFrame.chain?_respelled, hstate,
    respelled_popFrame]
  split <;> rfl

theorem respelled_lookup (hσ : Function.Injective σ) (m : Machine) (code : Code)
    (var : SymbolId) :
    (m.respelled σ).lookup (code.respell σ) (σ var) =
      respellOutcome σ (Value.respell σ) (m.lookup code var) := by
  simp only [lookup, respelled_heap, respelled_e, respelled_globals, Binding.find_respelled hσ]
  cases Binding.find m.heap code m.regs.e var with
  | slot values index =>
    simp only [Heap.slice?_respelled]
    cases m.heap.slice? values with
    | none => rfl
    | some vs =>
      simp only [Option.map_some, Option.bind_some, List.getElem?_map]
      cases vs[index]? <;> rfl
  | free =>
    simp only [Globals.get?_respell hσ]
    cases m.globals.get? var <;> rfl
  | broken => rfl
  | endless => rfl

theorem respelled_assign (hσ : Function.Injective σ) (m : Machine) (code : Code)
    (var : SymbolId) (v : Value) :
    (m.respelled σ).assign (code.respell σ) (σ var) (v.respell σ) =
      respelledResult σ id (m.assign code var v) := by
  simp only [assign, respelled_heap, respelled_e, respelled_globals, Binding.find_respelled hσ]
  cases Binding.find m.heap code m.regs.e var with
  | slot values index =>
    simp only [Heap.setAt_respelled]
    rcases m.heap.setAt values index v with ⟨e | u, heap⟩ <;> rfl
  | free =>
    simp only [Globals.set?_respell hσ]
    cases m.globals.set? var v <;> rfl
  | broken => rfl
  | endless => rfl

theorem respelled_applyClosure (hw : m.heap.capacity < wordLimit) (ref : Ref Closure) :
    (m.respelled σ).applyClosure (code.respell σ) ref =
      respelledResult σ id (m.applyClosure code ref) := by
  have hget : (m.respelled σ).heap.get? ref = m.heap.get? ref :=
    Heap.get?_closure_respelled σ m.heap ref
  cases hc : m.heap.get? ref with
  | none =>
    simp only [applyClosure, hget, hc]
    rfl
  | some c =>
    have hformals := code.formals?_respell σ c.formals
    cases hf : code.formals? c.formals with
    | none =>
      rw [hf] at hformals
      simp only [applyClosure, hget, hc, hf, hformals]
      rfl
    | some names =>
      have hw' : (m.respelled σ).heap.capacity < wordLimit := hw
      rw [hf] at hformals
      rw [applyClosure_eq hw hc hf, applyClosure_eq hw' (hget.trans hc) hformals,
        respelled_entered, respelled_heap, Heap.respelled_remaining, respelled_r,
        List.length_map, List.length_map]
      split
      · rfl
      · split <;> rfl

theorem respelled_applyContinuation (m : Machine) (ref : Ref Continuation) :
    (m.respelled σ).applyContinuation ref = respelledResult σ id (m.applyContinuation ref) := by
  have hget : (m.respelled σ).heap.get? ref = m.heap.get? ref :=
    Heap.get?_continuation_respelled σ m.heap ref
  cases hk : m.heap.get? ref with
  | none =>
    simp only [applyContinuation, hget, hk]
    rfl
  | some k =>
    by_cases hr : m.regs.r.length = 1
    · obtain ⟨v, hv⟩ := List.length_eq_one_iff.mp hr
      have hv' : (m.respelled σ).regs.r = [v.respell σ] := by rw [respelled_r, hv]; rfl
      rw [applyContinuation_eq hk hv, applyContinuation_eq (hget.trans hk) hv']
      exact respelled_popFrame (m.thrown k v)
    · have hr' : (m.respelled σ).regs.r.length ≠ 1 := by rwa [respelled_r, List.length_map]
      rw [applyContinuation_of_refused hk hr, applyContinuation_of_refused (hget.trans hk) hr',
        respelled_r, List.length_map]
      rfl

theorem respelled_applyPrimitive (hp : ∀ p ∈ m.primitives, p.Oblivious σ) (i : PrimitiveId) :
    (m.respelled σ).applyPrimitive i = respelledResult σ id (m.applyPrimitive i) := by
  simp only [applyPrimitive, primitive?_respelled, respelled_r, List.length_map]
  cases hi : m.primitive? i with
  | none => rfl
  | some p =>
    have hrun : (p.respell σ).run (m.regs.r.map (Value.respell σ)) =
        respellOutcome σ (Value.respell σ) (p.run m.regs.r) :=
      hp p (Array.mem_of_getElem? hi) m.regs.r
    have harity : (p.respell σ).arity = p.arity := rfl
    simp only [Option.map_some, hrun, harity]
    cases p.arity.accepts m.regs.r.length with
    | false => rfl
    | true =>
      simp only [↓reduceIte]
      cases p.run m.regs.r with
      | error e => rfl
      | ok v => exact respelled_popFrame (m.setAccumulator v)

theorem respelled_apply (hw : m.heap.capacity < wordLimit)
    (hp : ∀ p ∈ m.primitives, p.Oblivious σ) :
    (m.respelled σ).apply (code.respell σ) = respelledResult σ id (m.apply code) := by
  simp only [apply, respelled_a]
  cases m.regs.a with
  | closure ref => exact respelled_applyClosure hw ref
  | continuation ref => exact respelled_applyContinuation m ref
  | primitive i => exact respelled_applyPrimitive hp i
  | _ => rfl

/-! ## Instructions, steps and runs -/

theorem respelledResult_andGoto (r : Result Unit) (next : NodeId) :
    andGoto next (respelledResult σ id r) =
      respelledResult σ (Progress.respell σ) (andGoto next r) := by
  obtain ⟨e | u, m⟩ := r <;> rfl

theorem respelledResult_andContinue (r : Result Unit) :
    andContinue (respelledResult σ id r) =
      respelledResult σ (Progress.respell σ) (andContinue r) := by
  obtain ⟨e | u, m⟩ := r <;> rfl

/-- Respelling a machine beforehand or after an instruction is the same. -/
theorem respelled_execute (hσ : Function.Injective σ) (hw : m.heap.capacity < wordLimit)
    (hp : ∀ p ∈ m.primitives, p.Oblivious σ) (n : Node) :
    (m.respelled σ).execute (code.respell σ) (n.respell σ) =
      respelledResult σ (Progress.respell σ) (m.execute code n) := by
  cases n with
  | halt => rfl
  | refer var next =>
    simp only [Node.respell, execute, respelled_lookup hσ]
    cases m.lookup code var <;> rfl
  | constant v next => rfl
  | close formals body next =>
    simp only [Node.respell, execute, respelled_makeClosure, respelledResult_andGoto]
  | test onTrue onFalse =>
    simp only [Node.respell, execute, respelled_a, Value.isTruthy_respell]
    rfl
  | assign var next =>
    simp only [Node.respell, execute, respelled_a, respelled_assign hσ, respelledResult_andGoto]
  | conti next =>
    simp only [Node.respell, execute, respelled_capture, respelledResult_andGoto]
  | nuate stack var =>
    cases var with
    | none =>
      simp only [Node.respell, Option.map_none, execute, respelled_reinstate,
        respelledResult_andContinue]
    | some var =>
      simp only [Node.respell, Option.map_some, execute, respelled_lookup hσ]
      cases m.lookup code var with
      | error e => rfl
      | ok v =>
        rw [← respelledResult_andContinue, ← respelled_reinstate]
        rfl
  | frame returnTo next =>
    simp only [Node.respell, execute, respelled_pushFrame hw, respelledResult_andGoto]
  | argument next => rfl
  | apply =>
    simp only [Node.respell, execute, respelled_apply hw hp, respelledResult_andContinue]
  | ret =>
    simp only [Node.respell, execute, respelled_popFrame, respelledResult_andContinue]

/-- Respelling a machine beforehand or after a step is the same. -/
theorem respelled_step (hσ : Function.Injective σ) (hw : m.heap.capacity < wordLimit)
    (hp : ∀ p ∈ m.primitives, p.Oblivious σ) (code : Code) :
    (m.respelled σ).step (code.respell σ) =
      respelledResult σ (Progress.respell σ) (m.step code) := by
  have hl : (m.respelled σ).exhaustedLimit? = m.exhaustedLimit? := rfl
  cases hlimit : m.exhaustedLimit? with
  | some limit =>
    simp only [step, hl, hlimit]
    rfl
  | none =>
    have hnode := code.node?_respell σ m.regs.x
    cases hn : code.node? m.regs.x with
    | none =>
      rw [hn] at hnode
      simp only [step, hl, hlimit, respelled_x, hn, hnode, Option.map_none, Code.size_respell]
      rfl
    | some n =>
      rw [hn] at hnode
      rw [step_eq_execute hlimit hn, step_eq_execute (hl.trans hlimit) hnode]
      exact respelled_execute (m := m.tick) hσ hw hp n

/-- Respelling a machine beforehand or after a run is the same. -/
theorem respelled_proceed (hσ : Function.Injective σ) (hw : m.heap.capacity < wordLimit)
    (hp : ∀ p ∈ m.primitives, p.Oblivious σ) (code : Code) (expired : Nat → Bool) (fuel : Nat) :
    proceed (code.respell σ) expired fuel (m.respelled σ) =
      ((proceed code expired fuel m).1.map (respellOutcome σ (Value.respell σ)),
        (proceed code expired fuel m).2.respelled σ) := by
  induction fuel generalizing m with
  | zero => rfl
  | succ fuel ih =>
    have hs := respelled_step hσ hw hp code
    have hf := step_fitted hw code
    have hn : (m.respelled σ).stats = m.stats := rfl
    simp only [proceed, hs, hn]
    split
    · rfl
    · rcases hm₁ : m.step code with ⟨o, m₁⟩
      rw [hm₁] at hf
      cases o with
      | error e => rfl
      | ok p =>
        cases p with
        | halted v => rfl
        | running => exact ih (hf.capacity ▸ hw) (hf.primitives ▸ hp)

end Machine

end ClosureMachine
