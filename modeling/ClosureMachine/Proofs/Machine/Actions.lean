import ClosureMachine.Machine.Run
import ClosureMachine.Proofs.Heap.Depth

/-!
The machine's actions as equations. Each action either leads to one named state or changes nothing,
and which of the two is decided by what the action reads:

* `makeClosure_eq`, `capture_eq`, `pushFrame_eq`, `applyClosure_eq` by the room that is left;
* `popFrame_of_frame` by the top frame, `popFrame_of_none` and `popFrame_of_stale` without one;
* `applyPrimitive_of_ok`, `applyPrimitive_of_error`, `applyPrimitive_of_refused` by the procedure;
* `assign_cases` by where the variable is bound.
-/

namespace ClosureMachine

/-- It returns, whatever its arguments. -/
def Primitive.Returns (p : Primitive) : Prop := ∀ args, p.run args ≠ .error .endless

namespace Machine

/-! ## States after an action -/

/-- A closure has been stored and is in the accumulator. -/
def withClosure (m : Machine) (formals : FormalsId) (body : NodeId) : Machine :=
  { m with
    heap := m.heap.extend [.closure ⟨formals, body, m.regs.e⟩]
    regs := { m.regs with a := .closure ⟨⟨m.heap.used, m.heap.generation⟩⟩ } }

/-- The control stack has been stored and is in the accumulator. -/
def withContinuation (m : Machine) : Machine :=
  { m with
    heap := m.heap.extend [.continuation ⟨m.regs.s, m.depth⟩]
    regs := { m.regs with a := .continuation ⟨⟨m.heap.used, m.heap.generation⟩⟩ }
    stats := { m.stats with captured := m.stats.captured + 1 } }

/-- Environment and arguments have been saved in a new top frame. -/
def pushed (m : Machine) (returnTo : NodeId) : Machine :=
  { m with
    heap := m.heap.extend (.frame ⟨returnTo, .ofRef? m.regs.e, .ofRef? m.regs.s, m.regs.r.length⟩ ::
      m.regs.r.map .value)
    regs := { m.regs.clearRib with s := some ⟨⟨m.heap.used, m.heap.generation⟩⟩ }
    depth := m.depth + 1
    stats :=
      { m.stats with
        framesPushed := m.stats.framesPushed + 1
        maxDepth := max m.stats.maxDepth (m.depth + 1) } }

/-- A frame with saved arguments `rib` has been taken off the control stack. -/
def popped (m : Machine) (h : FrameHeader) (rib : List Value) : Machine :=
  { m with
    regs :=
      { m.regs.setRib rib with
        x := h.returnTo
        e := h.env.resolve m.heap.generation
        s := h.link.resolve m.heap.generation }
    depth := m.depth - 1
    stats := { m.stats with framesPopped := m.stats.framesPopped + 1 } }

/-- The body of a closure has been entered with the arguments bound. -/
def entered (m : Machine) (c : Closure) : Machine :=
  { m with
    heap := m.heap.extend (.environment ⟨c.formals, .ofRef? c.env, m.regs.r.length⟩ ::
      m.regs.r.map .value)
    regs := { m.regs.clearRib with e := some ⟨⟨m.heap.used, m.heap.generation⟩⟩, x := c.body } }

/-- A continuation has been handed its argument and its stack. -/
def thrown (m : Machine) (k : Continuation) (v : Value) : Machine :=
  { m with
    regs := { m.regs with a := v, s := k.stack }
    depth := k.depth
    stats := { m.stats with invoked := m.stats.invoked + 1 } }

/-- A control stack has been made current and its frames counted, if it has an end. -/
def reinstated (m : Machine) (stack : Option FrameRef) : Machine :=
  { m with
    regs := { m.regs with s := stack }
    depth := ((CallFrame.chain? m.heap stack).map Array.size).getD m.depth }

theorem step_eq_execute {m : Machine} {code : Code} {n : Node} (hl : m.exhaustedLimit? = none)
    (hn : code.node? m.regs.x = some n) : m.step code = m.tick.execute code n := by
  simp [step, hl, hn]

/-! ## Actions that store a record -/

theorem makeClosure_eq (m : Machine) (formals : FormalsId) (body : NodeId) :
    m.makeClosure formals body =
      if m.heap.remaining < 1 then
        (.error (.outOfMemory (.outOfMemory 1 m.heap.remaining m.heap.capacity)), m)
      else (.ok (), m.withClosure formals body) := by
  rw [makeClosure, Heap.alloc_closure_eq]
  by_cases h : m.heap.remaining < 1
  · rw [if_pos h, if_pos h]
  · rw [if_neg h, if_neg h]
    rfl

theorem capture_eq (m : Machine) :
    m.capture =
      if m.heap.remaining < 1 then
        (.error (.outOfMemory (.outOfMemory 1 m.heap.remaining m.heap.capacity)), m)
      else (.ok (), m.withContinuation) := by
  rw [capture, Heap.alloc_continuation_eq]
  by_cases h : m.heap.remaining < 1
  · rw [if_pos h, if_pos h]
  · rw [if_neg h, if_neg h]
    rfl

theorem pushFrame_eq {m : Machine} (hw : m.heap.capacity < wordLimit) (returnTo : NodeId) :
    m.pushFrame returnTo =
      if m.heap.remaining < m.regs.r.length + 1 then
        (.error (.outOfMemory (.outOfMemory (Heap.requested m.regs.r.length) m.heap.remaining
          m.heap.capacity)), m)
      else (.ok (), m.pushed returnTo) := by
  rw [pushFrame, Heap.push_eq hw]
  by_cases h : m.heap.remaining < m.regs.r.length + 1
  · rw [if_pos h, if_pos h]
  · rw [if_neg h, if_neg h]
    rfl

/-- A closure whose parameters are known is entered when the arguments are as many and there is
room to bind them. -/
theorem applyClosure_eq {m : Machine} (hw : m.heap.capacity < wordLimit) {code : Code}
    {r : Ref Closure} {c : Closure} {names : List SymbolId} (hc : m.heap.get? r = some c)
    (hn : code.formals? c.formals = some names) :
    m.applyClosure code r =
      if names.length ≠ m.regs.r.length then
        (.error (.arityMismatch (.closure r) (.exactly names.length) m.regs.r.length), m)
      else if m.heap.remaining < m.regs.r.length + 1 then
        (.error (.outOfMemory (.outOfMemory (Heap.requested m.regs.r.length) m.heap.remaining
          m.heap.capacity)), m)
      else (.ok (), m.entered c) := by
  simp only [applyClosure, hc, hn, Heap.bind_eq hw]
  split
  · rfl
  · by_cases h : m.heap.remaining < m.regs.r.length + 1
    · rw [if_pos h, if_pos h]
    · rw [if_neg h, if_neg h]
      rfl

/-! ## Returning -/

theorem popFrame_of_none {m : Machine} (h : m.regs.s = none) :
    m.popFrame = (.error (.stackUnderflow m.regs.x), m) := by
  simp [popFrame, h]

theorem popFrame_of_stale {m : Machine} {top : FrameRef} (h : m.regs.s = some top)
    (hn : CallFrame.load? m.heap top = none) :
    m.popFrame = (.error (.malformed .staleFrame), m) := by
  simp [popFrame, h, hn]

/-- Returning into a stored frame restores what it saved. -/
theorem popFrame_of_frame {m : Machine} {base : Nat} (hl : m.heap.Linked base) {top : FrameRef}
    {h : FrameHeader} {rib : List Value} (hs : m.regs.s = some top)
    (hb : base ≤ top.addr.offset) (hg : top.addr.generation = m.heap.generation)
    (hc : m.heap.cell? top.addr.offset = some (.frame h)) (hn : rib.length = h.length)
    (hr : m.heap.HoldsValues (top.addr.offset + 1) rib) :
    m.popFrame = (.ok (), m.popped h rib) := by
  have hslice : m.heap.slice?
      (⟨top.addr.offset + 1, h.length, m.heap.generation⟩ : Slice Value) = some rib :=
    (Heap.slice?_eq_some_iff rfl rib).mpr ⟨hn, hr⟩
  simp only [popFrame, hs, hl.load_frame hb hg hc, hslice]
  rfl

theorem applyContinuation_eq {m : Machine} {r : Ref Continuation} {k : Continuation} {v : Value}
    (hk : m.heap.get? r = some k) (hv : m.regs.r = [v]) :
    m.applyContinuation r = (m.thrown k v).popFrame := by
  simp only [applyContinuation, hk, hv, reinstate, Option.some_or]
  rfl

theorem applyContinuation_of_refused {m : Machine} {r : Ref Continuation} {k : Continuation}
    (hk : m.heap.get? r = some k) (hr : m.regs.r.length ≠ 1) :
    m.applyContinuation r =
      (.error (.arityMismatch (.continuation r) (.exactly 1) m.regs.r.length), m) := by
  simp only [applyContinuation, hk]
  split
  · next v hv => exact absurd (by rw [hv]; rfl) hr
  · rfl

theorem reinstate_none_eq (m : Machine) (stack : Option FrameRef) :
    m.reinstate stack none =
      if CallFrame.chain? m.heap stack = none then (.error .endless, m.reinstated stack)
      else (m.reinstated stack).popFrame := by
  cases h : CallFrame.chain? m.heap stack with
  | none => simp only [reinstate, reinstated, Option.none_or, h, Option.map_none, Option.getD_none,
      ↓reduceIte]
  | some frames => simp only [reinstate, reinstated, Option.none_or, h, Option.map_some,
      Option.getD_some, reduceCtorEq, ↓reduceIte]

/-- A stack is installed and returned into, or it is counted for ever. -/
theorem reinstate_none_cases (m : Machine) (stack : Option FrameRef) :
    m.reinstate stack none = (m.reinstated stack).popFrame ∨
      m.reinstate stack none = (.error .endless, m.reinstated stack) := by
  rw [reinstate_none_eq]
  split
  · exact .inr rfl
  · exact .inl rfl

theorem reinstate_of_counted {m : Machine} {stack : Option FrameRef} {n : Nat}
    (h : (CallFrame.chain? m.heap stack).map Array.size = some n) :
    m.reinstate stack none = (m.reinstated stack).popFrame := by
  obtain ⟨frames, hframes, -⟩ := Option.map_eq_some_iff.mp h
  rw [reinstate_none_eq, if_neg (by rw [hframes]; nofun)]

theorem reinstate_of_linked {m : Machine} (hl : m.heap.Linked 0) (stack : Option FrameRef) :
    m.reinstate stack none = (m.reinstated stack).popFrame := by
  obtain ⟨n, hn⟩ := hl.counted stack
  exact reinstate_of_counted hn

theorem popFrame_of_reinstate {m m' : Machine} {stack : Option FrameRef}
    (h : m.reinstate stack none = (.ok (), m')) : (m.reinstated stack).popFrame = (.ok (), m') := by
  rcases m.reinstate_none_cases stack with heq | heq
  · rwa [heq] at h
  · rw [heq] at h
    cases h

theorem reinstate_empty (m : Machine) : m.reinstate none none = (m.reinstated none).popFrame :=
  @reinstate_of_counted _ _ 0 (by rw [CallFrame.chain?_none]; rfl)

/-! ## Host procedures -/

/-- What the machine knows of its host procedures. -/
def procedures (m : Machine) : List (Arity × HostProcedure) :=
  m.primitives.toList.map fun p => (p.arity, p.run)

theorem size_primitives (m : Machine) : m.primitives.size = m.procedures.length := by
  simp [procedures]

theorem procedures_congr {m m' : Machine} (h : m'.primitives = m.primitives) :
    m'.procedures = m.procedures := by
  rw [procedures, procedures, h]

section

variable {m : Machine} {i : PrimitiveId} {arity : Arity} {run : HostProcedure}

private theorem primitive?_of_procedures (h : m.procedures[i]? = some (arity, run)) :
    ∃ p, m.primitive? i = some p ∧ p.arity = arity ∧ p.run = run := by
  simp only [procedures, List.getElem?_map, Option.map_eq_some_iff, Array.getElem?_toList] at h
  obtain ⟨p, hp, heq⟩ := h
  cases heq
  exact ⟨p, hp, rfl, rfl⟩

theorem applyPrimitive_of_refused (h : m.procedures[i]? = some (arity, run))
    (ha : arity.accepts m.regs.r.length = false) :
    m.applyPrimitive i =
      (.error (.arityMismatch (.primitive i) arity m.regs.r.length), m) := by
  obtain ⟨p, hp, rfl, rfl⟩ := primitive?_of_procedures h
  simp [applyPrimitive, hp, ha]

theorem applyPrimitive_of_error (h : m.procedures[i]? = some (arity, run))
    (ha : arity.accepts m.regs.r.length = true) {e : MachineError} (hr : run m.regs.r = .error e) :
    m.applyPrimitive i = (.error e, m) := by
  obtain ⟨p, hp, rfl, rfl⟩ := primitive?_of_procedures h
  simp [applyPrimitive, hp, ha, hr]

theorem applyPrimitive_of_ok (h : m.procedures[i]? = some (arity, run))
    (ha : arity.accepts m.regs.r.length = true) {v : Value} (hr : run m.regs.r = .ok v) :
    m.applyPrimitive i = (m.setAccumulator v).popFrame := by
  obtain ⟨p, hp, rfl, rfl⟩ := primitive?_of_procedures h
  simp [applyPrimitive, hp, ha, hr]

end

end Machine

/-! ## Variables -/

/-- A slot that the search finds belongs to an environment frame of the heap. -/
theorem Binding.search_slot {heap : Heap} {base : Nat} (hl : heap.Linked base) {code : Code}
    {var : SymbolId} {s : Slice Value} {i : Nat} :
    ∀ (fuel : Nat) (env : Option EnvRef), (∀ r ∈ env, heap.HoldsEnv base heap.used r) →
      Binding.search heap code var fuel env = .slot s i →
        ∃ (r : EnvRef) (h : EnvHeader) (names : List SymbolId), heap.HoldsEnv base heap.used r ∧
          heap.cell? r.addr.offset = some (.environment h) ∧ code.formals? h.names = some names ∧
          names.idxOf? var = some i ∧ s = ⟨r.addr.offset + 1, h.length, heap.generation⟩ := by
  intro fuel
  induction fuel with
  | zero =>
    intro env _ h
    cases env <;> simp [search] at h
  | succ fuel ih =>
    intro env he h
    cases env with
    | none => simp [search] at h
    | some r =>
      have hr := he r rfl
      obtain ⟨head, hc⟩ := hr.stored
      simp only [search, hl.load_env hr.base_le hr.generation hc] at h
      cases hn : code.formals? head.names with
      | none => simp [hn] at h
      | some names =>
        simp only [hn] at h
        cases hi : names.idxOf? var with
        | some index =>
          simp only [hi] at h
          cases h
          exact ⟨r, head, names, hr, hc, hn, hi, rfl⟩
        | none =>
          simp only [hi] at h
          have hparent := hl.link _ _ hr.base_le hc
          exact ih _ (fun r' hr' => (hparent r' hr').mono (Heap.Keeps.refl _ _)
            (Nat.le_of_lt hr.lt_bound)) h

/-- Where every frame's parameter list is known, the search comes to a slot or to the end. -/
theorem Binding.search_settles {heap : Heap} {base : Nat} (hl : heap.Linked base) {code : Code}
    (hf : ∀ o h, base ≤ o → heap.cell? o = some (.environment h) →
      ∃ names, code.formals? h.names = some names) (var : SymbolId) :
    ∀ (fuel : Nat) (env : Option EnvRef),
      (∀ r ∈ env, heap.HoldsEnv base heap.used r ∧ r.addr.offset < fuel) →
        (∃ s i, Binding.search heap code var fuel env = .slot s i) ∨
          Binding.search heap code var fuel env = .free := by
  intro fuel
  induction fuel with
  | zero =>
    intro env he
    cases env with
    | none => exact .inr rfl
    | some r => exact absurd (he r rfl).2 (Nat.not_lt_zero _)
  | succ fuel ih =>
    intro env he
    cases env with
    | none => exact .inr rfl
    | some r =>
      obtain ⟨hr, hlt⟩ := he r rfl
      obtain ⟨head, hc⟩ := hr.stored
      obtain ⟨names, hn⟩ := hf _ _ hr.base_le hc
      simp only [search, hl.load_env hr.base_le hr.generation hc, hn]
      cases hi : names.idxOf? var with
      | some index => exact .inl ⟨_, index, rfl⟩
      | none =>
        have hparent := hl.link _ _ hr.base_le hc
        refine ih _ fun r' hr' => ⟨(hparent r' hr').mono (Heap.Keeps.refl _ _)
          (Nat.le_of_lt hr.lt_bound), ?_⟩
        have := (hparent r' hr').lt_bound
        omega

namespace Machine

/-- An assignment changes one slot of one environment frame, or one global, or nothing. -/
theorem assign_cases {m : Machine} {base : Nat} (hl : m.heap.Linked base)
    (he : ∀ r ∈ m.regs.e, m.heap.HoldsEnv base m.heap.used r) (code : Code) (var : SymbolId)
    (v : Value) :
    (∃ (r : EnvRef) (h : EnvHeader) (i : Nat), m.heap.HoldsEnv base m.heap.used r ∧
        m.heap.cell? r.addr.offset = some (.environment h) ∧ i < h.length ∧
        m.assign code var v =
          (.ok (), { m with heap := m.heap.setValue (r.addr.offset + 1 + i) v })) ∨
      (∃ g, m.globals.set? var v = some g ∧
        m.assign code var v = (.ok (), { m with globals := g })) ∨
      ∃ e, m.assign code var v = (.error e, m) := by
  cases hf : Binding.find m.heap code m.regs.e var with
  | slot s i =>
    obtain ⟨r, h, names, hr, hc, -, -, rfl⟩ := Binding.search_slot hl _ _ he hf
    rcases Heap.setAt_eq m.heap ⟨r.addr.offset + 1, h.length, m.heap.generation⟩ i v with
      ⟨hset, hi, -, -⟩ | ⟨⟨e, hset⟩, -⟩
    · exact .inl ⟨r, h, i, hr, hc, hi, by simp only [assign, hf, hset]⟩
    · exact .inr (.inr ⟨_, by simp only [assign, hf, hset]; rfl⟩)
  | free =>
    cases hg : m.globals.set? var v with
    | some g => exact .inr (.inl ⟨g, rfl, by simp only [assign, hf, hg]⟩)
    | none => exact .inr (.inr ⟨_, by simp only [assign, hf, hg]; rfl⟩)
  | broken => exact .inr (.inr ⟨_, by simp only [assign, hf]; rfl⟩)
  | endless => exact .inr (.inr ⟨_, by simp only [assign, hf]; rfl⟩)

end Machine

end ClosureMachine
