import ClosureMachine.Proofs.Heap.Renaming
import ClosureMachine.Proofs.Machine.Actions

/-!
A machine with all its handles renamed, `Machine.moved ρ`, does what the machine does: renaming
beforehand or after a step is the same (`moved_step`). This holds for every injective `ρ` as long as
the code holds no handles of its own and the host procedures take no notice of generations. So
nothing that a machine does depends on the number of its generation, nor on how full its arena has
been before.
-/

namespace ClosureMachine

/-! ## The parts of a machine -/

def Registers.rename (ρ : Nat → Nat) (regs : Registers) : Registers :=
  { regs with
    a := regs.a.rename ρ
    e := regs.e.map (Ref.rename ρ)
    collected := regs.collected.map (Value.rename ρ)
    s := regs.s.map (Ref.rename ρ) }

def Globals.rename (ρ : Nat → Nat) (g : Globals) : Globals :=
  ⟨g.bindings.map fun b => (b.1, b.2.rename ρ)⟩

def Progress.rename (ρ : Nat → Nat) : Progress → Progress
  | running => running
  | halted v => halted (v.rename ρ)

def MachineError.rename (ρ : Nat → Nat) : MachineError → MachineError
  | notCallable v => notCallable (v.rename ρ)
  | arityMismatch callee expected actual => arityMismatch (callee.rename ρ) expected actual
  | e => e

/-- The outcome with the handles in its error renamed, and its value by `f`. -/
def renameOutcome {α : Type} (ρ : Nat → Nat) (f : α → α) :
    Except MachineError α → Except MachineError α
  | .ok a => .ok (f a)
  | .error e => .error (e.rename ρ)

/-- The procedure takes no notice of the generations that `ρ` renames: renamed arguments get the
renamed answer. One that reported the number in a handle would not be of this kind. -/
def Primitive.Impartial (ρ : Nat → Nat) (p : Primitive) : Prop :=
  ∀ args, p.run (args.map (Value.rename ρ)) = renameOutcome ρ (Value.rename ρ) (p.run args)

namespace Globals

variable (ρ : Nat → Nat) (g : Globals)

theorem get?_rename (var : SymbolId) :
    (g.rename ρ).get? var = (g.get? var).map (Value.rename ρ) := by
  obtain ⟨bs⟩ := g
  simp only [rename, get?]
  induction bs with
  | nil => rfl
  | cons b bs ih =>
    rw [List.map_cons, List.lookup_cons, List.lookup_cons, ih]
    cases var == b.1 <;> rfl

theorem replace_rename (var : SymbolId) (v : Value) (bs : List (SymbolId × Value)) :
    replace var (v.rename ρ) (bs.map fun b => (b.1, b.2.rename ρ)) =
      (replace var v bs).map fun b => (b.1, b.2.rename ρ) := by
  induction bs with
  | nil => rfl
  | cons b bs ih =>
    simp only [List.map_cons, replace, ih]
    cases var == b.1 <;> rfl

theorem set?_rename (var : SymbolId) (v : Value) :
    (g.rename ρ).set? var (v.rename ρ) = (g.set? var v).map (rename ρ) := by
  cases hv : g.get? var with
  | none =>
    have hv' : (g.rename ρ).get? var = none := by rw [get?_rename, hv, Option.map_none]
    rw [(set?_eq_none_iff g var v).mpr hv, (set?_eq_none_iff _ var _).mpr hv', Option.map_none]
  | some w =>
    simp only [set?, contains, get?_rename, hv, Option.map_some, Option.isSome_some, ↓reduceIte]
    exact congrArg some (congrArg Globals.mk (replace_rename ρ var v g.bindings))

theorem contains_rename (var : SymbolId) : (g.rename ρ).contains var = g.contains var := by
  rw [contains, contains, get?_rename, Option.isSome_map]

theorem define_rename (var : SymbolId) (v : Value) :
    (g.rename ρ).define var (v.rename ρ) = (g.define var v).rename ρ := by
  simp only [define, contains_rename]
  split
  · exact congrArg Globals.mk (replace_rename ρ var v g.bindings)
  · simp only [rename, List.map_append, List.map_cons, List.map_nil]

theorem rename_immediates : g.immediates.rename ρ = g.immediates := by
  refine congrArg Globals.mk ((List.map_congr_left fun b hb => ?_).trans (List.map_id _))
  have hv : b.2.isBoxed = false := by simpa using (List.mem_filter.mp hb).2
  exact Prod.ext rfl (Value.rename_of_unboxed ρ hv)

end Globals

namespace Machine

variable {ρ : Nat → Nat} {m : Machine} {code : Code}

/-- The machine with all its handles renamed. -/
def moved (ρ : Nat → Nat) (m : Machine) : Machine :=
  { m with heap := m.heap.moved ρ, globals := m.globals.rename ρ, regs := m.regs.rename ρ }

/-- The outcome and the state of an action with all their handles renamed. -/
def movedResult {α : Type} (ρ : Nat → Nat) (f : α → α) (r : Result α) : Result α :=
  (renameOutcome ρ f r.1, r.2.moved ρ)

section

variable (ρ) (m : Machine)

@[simp] theorem moved_heap : (m.moved ρ).heap = m.heap.moved ρ := rfl

@[simp] theorem moved_globals : (m.moved ρ).globals = m.globals.rename ρ := rfl

@[simp] theorem moved_a : (m.moved ρ).regs.a = m.regs.a.rename ρ := rfl

@[simp] theorem moved_x : (m.moved ρ).regs.x = m.regs.x := rfl

@[simp] theorem moved_e : (m.moved ρ).regs.e = m.regs.e.map (Ref.rename ρ) := rfl

@[simp] theorem moved_s : (m.moved ρ).regs.s = m.regs.s.map (Ref.rename ρ) := rfl

@[simp] theorem moved_r : (m.moved ρ).regs.r = m.regs.r.map (Value.rename ρ) := by
  simp [moved, Registers.r, Registers.rename]

end

/-! ## Actions -/

theorem moved_withClosure (m : Machine) (formals : FormalsId) (body : NodeId) :
    (m.moved ρ).withClosure formals body = (m.withClosure formals body).moved ρ := by
  have hh := m.heap.moved_extend ρ [.closure ⟨formals, body, m.regs.e⟩]
  simp only [withClosure, moved, ← hh, Heap.moved_used, Heap.moved_generation]
  rfl

theorem moved_withContinuation (m : Machine) :
    (m.moved ρ).withContinuation = m.withContinuation.moved ρ := by
  have hh := m.heap.moved_extend ρ [.continuation ⟨m.regs.s, m.depth⟩]
  simp only [withContinuation, moved, ← hh, Heap.moved_used, Heap.moved_generation]
  rfl

/-- Of a stored frame only the values are renamed: links have no generation. -/
theorem map_rename_values (head : Cell) (hh : head.rename ρ = head) (vs : List Value) :
    (head :: vs.map Cell.value).map (Cell.rename ρ) =
      head :: (vs.map (Value.rename ρ)).map Cell.value := by
  rw [List.map_cons, hh, List.map_map, List.map_map]
  rfl

theorem moved_pushed (m : Machine) (returnTo : NodeId) :
    (m.moved ρ).pushed returnTo = (m.pushed returnTo).moved ρ := by
  have hh := m.heap.moved_extend ρ
    (.frame ⟨returnTo, .ofRef? m.regs.e, .ofRef? m.regs.s, m.regs.r.length⟩ ::
      m.regs.r.map .value)
  rw [map_rename_values _ rfl] at hh
  simp only [pushed, moved_r, moved_e, moved_s, Link.ofRef?_rename, List.length_map, moved_heap,
    hh, Heap.moved_used, Heap.moved_generation]
  rfl

theorem moved_entered (m : Machine) (c : Closure) :
    (m.moved ρ).entered (c.rename ρ) = (m.entered c).moved ρ := by
  have hh := m.heap.moved_extend ρ
    (.environment ⟨c.formals, .ofRef? c.env, m.regs.r.length⟩ :: m.regs.r.map .value)
  rw [map_rename_values _ rfl] at hh
  simp only [entered, moved_r, Closure.rename, Link.ofRef?_rename, List.length_map, moved_heap,
    hh, Heap.moved_used, Heap.moved_generation]
  rfl

theorem moved_makeClosure (m : Machine) (formals : FormalsId) (body : NodeId) :
    (m.moved ρ).makeClosure formals body = movedResult ρ id (m.makeClosure formals body) := by
  rw [makeClosure_eq, makeClosure_eq, moved_heap, Heap.moved_remaining, moved_withClosure]
  split <;> rfl

theorem moved_capture (m : Machine) : (m.moved ρ).capture = movedResult ρ id m.capture := by
  rw [capture_eq, capture_eq, moved_heap, Heap.moved_remaining, moved_withContinuation]
  split <;> rfl

theorem moved_pushFrame (hw : m.heap.capacity < wordLimit) (returnTo : NodeId) :
    (m.moved ρ).pushFrame returnTo = movedResult ρ id (m.pushFrame returnTo) := by
  have hw' : (m.moved ρ).heap.capacity < wordLimit := hw
  rw [pushFrame_eq hw, pushFrame_eq hw', moved_pushed, moved_heap, Heap.moved_remaining,
    moved_r, List.length_map]
  split <;> rfl

theorem moved_popFrame (hρ : Function.Injective ρ) (m : Machine) :
    (m.moved ρ).popFrame = movedResult ρ id m.popFrame := by
  cases hs : m.regs.s with
  | none =>
    have hs' : (m.moved ρ).regs.s = none := by rw [moved_s, hs, Option.map_none]
    rw [popFrame_of_none hs, popFrame_of_none hs']
    rfl
  | some top =>
    have hs' : (m.moved ρ).regs.s = some (top.rename ρ) := by rw [moved_s, hs, Option.map_some]
    simp only [popFrame, hs, hs', moved_heap, CallFrame.load?_moved hρ]
    cases CallFrame.load? m.heap top with
    | none => rfl
    | some frame =>
      simp only [Option.map_some, CallFrame.rename, Heap.slice?_moved hρ]
      cases m.heap.slice? frame.rib with
      | none => rfl
      | some rib =>
        simp [movedResult, renameOutcome, moved, Registers.setRib, Registers.rename]

theorem moved_lookup (hρ : Function.Injective ρ) (m : Machine) (code : Code) (var : SymbolId) :
    (m.moved ρ).lookup code var = renameOutcome ρ (Value.rename ρ) (m.lookup code var) := by
  simp only [lookup, moved_heap, moved_e, moved_globals, Binding.find_moved hρ]
  cases Binding.find m.heap code m.regs.e var with
  | slot values index =>
    simp only [Binding.rename, Heap.slice?_moved hρ]
    cases m.heap.slice? values with
    | none => rfl
    | some vs =>
      simp only [Option.map_some, Option.bind_some, List.getElem?_map]
      cases vs[index]? <;> rfl
  | free =>
    simp only [Binding.rename, Globals.get?_rename]
    cases m.globals.get? var <;> rfl
  | broken => rfl
  | endless => rfl

theorem moved_assign (hρ : Function.Injective ρ) (m : Machine) (code : Code) (var : SymbolId)
    (v : Value) :
    (m.moved ρ).assign code var (v.rename ρ) = movedResult ρ id (m.assign code var v) := by
  simp only [assign, moved_heap, moved_e, moved_globals, Binding.find_moved hρ]
  cases Binding.find m.heap code m.regs.e var with
  | slot values index =>
    simp only [Binding.rename, Heap.setAt_moved hρ]
    rcases m.heap.setAt values index v with ⟨e | u, heap⟩ <;> rfl
  | free =>
    simp only [Binding.rename, Globals.set?_rename]
    cases m.globals.set? var v <;> rfl
  | broken => rfl
  | endless => rfl

theorem moved_applyClosure (hρ : Function.Injective ρ) (hw : m.heap.capacity < wordLimit)
    (ref : Ref Closure) :
    (m.moved ρ).applyClosure code (ref.rename ρ) = movedResult ρ id (m.applyClosure code ref) := by
  have hget := Heap.get?_closure_moved hρ m.heap ref
  cases hc : m.heap.get? ref with
  | none =>
    rw [hc] at hget
    simp only [applyClosure, moved_heap, hget, hc]
    rfl
  | some c =>
    rw [hc] at hget
    cases hf : code.formals? c.formals with
    | none =>
      have hf' : code.formals? (c.rename ρ).formals = none := hf
      simp only [applyClosure, moved_heap, hget, hc, Option.map_some, hf, hf']
      rfl
    | some names =>
      have hw' : (m.moved ρ).heap.capacity < wordLimit := hw
      have hf' : code.formals? (c.rename ρ).formals = some names := hf
      rw [applyClosure_eq hw hc hf, applyClosure_eq hw' hget hf', moved_entered, moved_heap,
        Heap.moved_remaining, moved_r, List.length_map]
      split
      · rfl
      · split <;> rfl

theorem moved_applyContinuation (hρ : Function.Injective ρ) (m : Machine)
    (ref : Ref Continuation) :
    (m.moved ρ).applyContinuation (ref.rename ρ) =
      movedResult ρ id (m.applyContinuation ref) := by
  have hget := Heap.get?_continuation_moved hρ m.heap ref
  cases hk : m.heap.get? ref with
  | none =>
    rw [hk] at hget
    simp only [applyContinuation, moved_heap, hget, hk]
    rfl
  | some k =>
    rw [hk] at hget
    by_cases hr : m.regs.r.length = 1
    · obtain ⟨v, hv⟩ := List.length_eq_one_iff.mp hr
      have hv' : (m.moved ρ).regs.r = [v.rename ρ] := by rw [moved_r, hv]; rfl
      rw [applyContinuation_eq hk hv, applyContinuation_eq hget hv']
      exact moved_popFrame hρ (m.thrown k v)
    · have hr' : (m.moved ρ).regs.r.length ≠ 1 := by rwa [moved_r, List.length_map]
      rw [applyContinuation_of_refused hk hr, applyContinuation_of_refused hget hr', moved_r,
        List.length_map]
      rfl

theorem moved_applyPrimitive (hρ : Function.Injective ρ)
    (hp : ∀ p ∈ m.primitives, p.Impartial ρ) (i : PrimitiveId) :
    (m.moved ρ).applyPrimitive i = movedResult ρ id (m.applyPrimitive i) := by
  have hsame : (m.moved ρ).primitive? i = m.primitive? i := rfl
  simp only [applyPrimitive, hsame, moved_r, List.length_map]
  cases hi : m.primitive? i with
  | none => rfl
  | some p =>
    cases ha : p.arity.accepts m.regs.r.length with
    | false =>
      simp only [ha, Bool.false_eq_true, ↓reduceIte]
      rfl
    | true =>
      simp only [ha, ↓reduceIte, hp p (Array.mem_of_getElem? hi) m.regs.r]
      cases p.run m.regs.r with
      | error e => rfl
      | ok v => exact moved_popFrame hρ (m.setAccumulator v)

theorem moved_apply (hρ : Function.Injective ρ) (hw : m.heap.capacity < wordLimit)
    (hp : ∀ p ∈ m.primitives, p.Impartial ρ) :
    (m.moved ρ).apply code = movedResult ρ id (m.apply code) := by
  simp only [apply, moved_a]
  cases m.regs.a with
  | closure ref => exact moved_applyClosure hρ hw ref
  | continuation ref => exact moved_applyContinuation hρ m ref
  | primitive i => exact moved_applyPrimitive hρ hp i
  | _ => rfl

theorem movedResult_andGoto (r : Result Unit) (next : NodeId) :
    andGoto next (movedResult ρ id r) = movedResult ρ (Progress.rename ρ) (andGoto next r) := by
  obtain ⟨e | u, m⟩ := r <;> rfl

theorem movedResult_andContinue (r : Result Unit) :
    andContinue (movedResult ρ id r) = movedResult ρ (Progress.rename ρ) (andContinue r) := by
  obtain ⟨e | u, m⟩ := r <;> rfl

end Machine

/-! ## Instructions and steps -/

/-- The instruction holds no handle: its constant points to nothing and its stack is empty. -/
def Node.isHandleless : Node → Bool
  | constant v _ => !v.isBoxed
  | nuate stack _ => stack.isNone
  | _ => true

def Code.Handleless (c : Code) : Prop := ∀ n ∈ c.nodes.toList, n.isHandleless = true

instance (c : Code) : Decidable c.Handleless :=
  inferInstanceAs (Decidable (∀ n ∈ c.nodes.toList, n.isHandleless = true))

namespace Machine

variable {ρ : Nat → Nat} {m : Machine} {code : Code}

/-- Making the empty stack current is the same for a machine and a renamed one. -/
theorem moved_reinstate (hρ : Function.Injective ρ) (m : Machine) :
    (m.moved ρ).reinstate none none = movedResult ρ id (m.reinstate none none) := by
  have hstate : (m.moved ρ).reinstated none = (m.reinstated none).moved ρ := by
    simp only [reinstated, CallFrame.chain?_none]
    rfl
  rw [reinstate_empty, reinstate_empty, hstate, moved_popFrame hρ]

/-- Renaming a machine beforehand or after an instruction is the same. -/
theorem moved_execute (hρ : Function.Injective ρ) (hw : m.heap.capacity < wordLimit)
    (hp : ∀ p ∈ m.primitives, p.Impartial ρ) {n : Node} (hn : n.isHandleless = true) :
    (m.moved ρ).execute code n = movedResult ρ (Progress.rename ρ) (m.execute code n) := by
  cases n with
  | halt => rfl
  | refer var next =>
    simp only [execute, moved_lookup hρ]
    cases m.lookup code var <;> rfl
  | constant v next =>
    have hv : v.rename ρ = v := Value.rename_of_unboxed ρ (by simpa [Node.isHandleless] using hn)
    have hstate : ((m.setAccumulator v).goto next).moved ρ =
        ((m.moved ρ).setAccumulator (v.rename ρ)).goto next := rfl
    simp only [execute, movedResult, hstate, hv]
    rfl
  | close formals body next =>
    simp only [execute, moved_makeClosure, movedResult_andGoto]
  | test onTrue onFalse =>
    simp only [execute, moved_a, Value.isTruthy_rename]
    rfl
  | assign var next =>
    simp only [execute, moved_a, moved_assign hρ, movedResult_andGoto]
  | conti next =>
    simp only [execute, moved_capture, movedResult_andGoto]
  | nuate stack var =>
    obtain rfl : stack = none := by simpa [Node.isHandleless] using hn
    cases var with
    | none => simp only [execute, moved_reinstate hρ, movedResult_andContinue]
    | some var =>
      simp only [execute, moved_lookup hρ]
      cases m.lookup code var with
      | error e => rfl
      | ok v =>
        rw [← movedResult_andContinue, ← moved_reinstate hρ]
        rfl
  | frame returnTo next =>
    simp only [execute, moved_pushFrame hw, movedResult_andGoto]
  | argument next => rfl
  | apply =>
    simp only [execute, moved_apply hρ hw hp, movedResult_andContinue]
  | ret =>
    simp only [execute, moved_popFrame hρ, movedResult_andContinue]

/-- Renaming a machine beforehand or after a step is the same. -/
theorem moved_step (hρ : Function.Injective ρ) (hw : m.heap.capacity < wordLimit)
    (hp : ∀ p ∈ m.primitives, p.Impartial ρ) (hc : code.Handleless) :
    (m.moved ρ).step code = movedResult ρ (Progress.rename ρ) (m.step code) := by
  have hl : (m.moved ρ).exhaustedLimit? = m.exhaustedLimit? := rfl
  cases hlimit : m.exhaustedLimit? with
  | some limit =>
    simp only [step, hl, hlimit]
    rfl
  | none =>
    cases hn : code.node? m.regs.x with
    | none =>
      simp only [step, hl, hlimit, moved_x, hn]
      rfl
    | some n =>
      rw [step_eq_execute hlimit hn, step_eq_execute (hl.trans hlimit) hn]
      exact moved_execute (m := m.tick) hρ hw hp (hc n (Array.mem_of_getElem? hn).val)

/-! ## What a step leaves alone -/

/-- Host procedures and capacity are the same. -/
structure Fitted (m m' : Machine) : Prop where
  primitives : m'.primitives = m.primitives
  capacity : m'.heap.capacity = m.heap.capacity

theorem Fitted.refl (m : Machine) : Fitted m m := ⟨rfl, rfl⟩

theorem Fitted.trans {m' m'' : Machine} (h : Fitted m m') (h' : Fitted m' m'') : Fitted m m'' :=
  ⟨h'.primitives.trans h.primitives, h'.capacity.trans h.capacity⟩

theorem Fitted.andGoto {r : Result Unit} (h : Fitted m r.2) (next : NodeId) :
    Fitted m (andGoto next r).2 := by
  obtain ⟨e | u, m'⟩ := r
  · exact h
  · exact ⟨h.primitives, h.capacity⟩

theorem Fitted.andContinue {r : Result Unit} (h : Fitted m r.2) : Fitted m (andContinue r).2 := by
  obtain ⟨e | u, m'⟩ := r <;> exact h

theorem Fitted.popFrame {m' : Machine} (h : Fitted m m') : Fitted m m'.popFrame.2 := by
  unfold Machine.popFrame
  repeat' split
  all_goals exact ⟨h.primitives, h.capacity⟩

theorem Fitted.reinstate {m' : Machine} (h : Fitted m m') (stack : Option FrameRef) :
    Fitted m (m'.reinstate stack none).2 := by
  have hi : Fitted m (m'.reinstated stack) := ⟨h.primitives, h.capacity⟩
  rcases m'.reinstate_none_cases stack with heq | heq
  · rw [heq]
    exact hi.popFrame
  · rw [heq]
    exact hi

theorem fitted_assign (m : Machine) (var : SymbolId) (v : Value) :
    Fitted m (m.assign code var v).2 := by
  unfold assign
  split
  · next s i _ =>
    rcases Heap.setAt_eq m.heap s i v with ⟨hs, -⟩ | ⟨⟨e, hs⟩, -⟩ <;> rw [hs] <;>
      exact ⟨rfl, rfl⟩
  · split <;> exact ⟨rfl, rfl⟩
  · exact .refl m
  · exact .refl m

theorem fitted_applyClosure (hw : m.heap.capacity < wordLimit) (ref : Ref Closure) :
    Fitted m (m.applyClosure code ref).2 := by
  cases hc : m.heap.get? ref with
  | none =>
    simp only [applyClosure, hc]
    exact .refl m
  | some c =>
    cases hf : code.formals? c.formals with
    | none =>
      simp only [applyClosure, hc, hf]
      exact .refl m
    | some names =>
      rw [applyClosure_eq hw hc hf]
      repeat' split
      all_goals exact ⟨rfl, rfl⟩

theorem fitted_apply (hw : m.heap.capacity < wordLimit) : Fitted m (m.apply code).2 := by
  unfold apply
  split
  · exact fitted_applyClosure hw _
  · unfold applyContinuation
    repeat' split
    · exact .refl m
    · exact Fitted.popFrame ⟨rfl, rfl⟩
    · exact .refl m
  · unfold applyPrimitive
    repeat' split
    · exact .refl m
    · exact .refl m
    · exact Fitted.popFrame ⟨rfl, rfl⟩
    · exact .refl m
  · exact .refl m

theorem fitted_execute (hw : m.heap.capacity < wordLimit) (code : Code) (n : Node) :
    Fitted m (m.execute code n).2 := by
  cases n with
  | halt => exact .refl m
  | refer var next =>
    simp only [execute]
    split <;> exact ⟨rfl, rfl⟩
  | constant v next => exact ⟨rfl, rfl⟩
  | close formals body next =>
    refine Fitted.andGoto ?_ next
    rw [makeClosure_eq]
    split <;> exact ⟨rfl, rfl⟩
  | test onTrue onFalse => exact ⟨rfl, rfl⟩
  | assign var next => exact (fitted_assign m var m.regs.a).andGoto next
  | conti next =>
    refine Fitted.andGoto ?_ next
    rw [capture_eq]
    split <;> exact ⟨rfl, rfl⟩
  | nuate stack var =>
    cases var with
    | none => exact ((Fitted.refl m).reinstate stack).andContinue
    | some var =>
      simp only [execute]
      split
      · exact .refl m
      · next v _ =>
        have hv : Fitted m (m.setAccumulator v) := ⟨rfl, rfl⟩
        exact (hv.reinstate stack).andContinue
  | frame returnTo next =>
    refine Fitted.andGoto ?_ next
    rw [pushFrame_eq hw]
    split <;> exact ⟨rfl, rfl⟩
  | argument next => exact ⟨rfl, rfl⟩
  | apply => exact (fitted_apply hw).andContinue
  | ret => exact (Fitted.refl m).popFrame.andContinue

theorem step_fitted (hw : m.heap.capacity < wordLimit) (code : Code) :
    Fitted m (m.step code).2 := by
  unfold step
  split
  · exact .refl m
  · split
    · exact .refl m
    · next n _ =>
      obtain ⟨hp, hc⟩ := fitted_execute (m := m.tick) hw code n
      exact ⟨hp, hc⟩

/-- What it takes to rename a machine: its arena is of the size that arenas have, and its host
procedures take no notice. -/
structure Portable (ρ : Nat → Nat) (m : Machine) : Prop where
  capacity_lt : m.heap.capacity < wordLimit
  impartial : ∀ p ∈ m.primitives, p.Impartial ρ

theorem Fitted.portable {m' : Machine} (h : Fitted m m') (hm : m.Portable ρ) : m'.Portable ρ := by
  constructor
  · rw [h.capacity]
    exact hm.capacity_lt
  · rw [h.primitives]
    exact hm.impartial

end Machine

end ClosureMachine
