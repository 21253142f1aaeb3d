import ClosureMachine.Proofs.Machine.Rooted

/-!
What one step can do. Of all that the machine is made of, only the heap, the next instruction, the
environment, the argument rib and the control stack decide where control goes later. `Shift` lists
the ways in which a step changes them, whatever code it is given and whether it fails or not, and
`step_shift` says that there are no others. Invariants about control follow from this list alone.
-/

namespace ClosureMachine

/-- Where control goes by position after an instruction that concerns neither the argument rib nor
the control stack. -/
def Node.onward : Node → List NodeId
  | refer _ next | constant _ next | close _ _ next | assign _ next | conti next => [next]
  | test onTrue onFalse => [onTrue, onFalse]
  | _ => []

namespace Machine

/-- The cells that an instruction may add: values, and the record that it stores. -/
inductive Adds (m : Machine) : Node → Cell → Prop
  | value (n : Node) (v : Value) : Adds m n (.value v)
  | closure (formals : FormalsId) (body next : NodeId) :
    Adds m (.close formals body next) (.closure ⟨formals, body, m.regs.e⟩)
  | continuation (next : NodeId) : Adds m (.conti next) (.continuation ⟨m.regs.s, m.depth⟩)

/-- The ways in which a step changes heap, control and environment. -/
inductive Shift (code : Code) (m m' : Machine) : Prop
  /-- Nothing changes: the machine halts, or the step fails. -/
  | stay (heap : m'.heap = m.heap) (x : m'.regs.x = m.regs.x) (e : m'.regs.e = m.regs.e)
    (r : m'.regs.r = m.regs.r) (s : m'.regs.s = m.regs.s)
  | pass (n : Node) (node : code.node? m.regs.x = some n) (x : m'.regs.x ∈ n.onward)
    (cells : ∀ o c, m'.heap.cell? o = some c → m.heap.cell? o = some c ∨ m.Adds n c)
    (e : m'.regs.e = m.regs.e) (r : m'.regs.r = m.regs.r) (s : m'.regs.s = m.regs.s)
  | collect (next : NodeId) (node : code.node? m.regs.x = some (.argument next))
    (heap : m'.heap = m.heap) (x : m'.regs.x = next) (e : m'.regs.e = m.regs.e)
    (r : m'.regs.r = m.regs.r ++ [m.regs.a]) (s : m'.regs.s = m.regs.s)
  | push (returnTo next : NodeId) (node : code.node? m.regs.x = some (.frame returnTo next))
    (room : ¬ m.heap.remaining < m.regs.r.length + 1)
    (heap : m'.heap = (m.pushed returnTo).heap)
    (regs : m'.regs = { (m.pushed returnTo).regs with x := next })
  | pop (top : FrameRef) (head : FrameHeader) (rib : List Value) (heap : m'.heap = m.heap)
    (live : top.addr.generation = m.heap.generation)
    (stored : m.heap.cell? top.addr.offset = some (.frame head))
    (length : rib.length = head.length) (values : m.heap.HoldsValues (top.addr.offset + 1) rib)
    (x : m'.regs.x = head.returnTo) (e : m'.regs.e = head.env.resolve m.heap.generation)
    (r : m'.regs.r = rib) (s : m'.regs.s = head.link.resolve m.heap.generation)
  | enter (ref : Ref Closure) (c : Closure) (names : List SymbolId)
    (node : code.node? m.regs.x = some .apply) (a : m.regs.a = .closure ref)
    (stored : m.heap.get? ref = some c) (formals : code.formals? c.formals = some names)
    (arity : names.length = m.regs.r.length)
    (room : ¬ m.heap.remaining < m.regs.r.length + 1)
    (heap : m'.heap = (m.entered c).heap) (regs : m'.regs = (m.entered c).regs)
  /-- A control stack that cannot be returned into has been installed. -/
  | strand (stack : Option FrameRef)
    (source : (∃ var, code.node? m.regs.x = some (.nuate stack var)) ∨
      ∃ (ref : Ref Continuation) (k : Continuation),
        m.heap.get? ref = some k ∧ k.stack = stack)
    (heap : m'.heap = m.heap) (x : m'.regs.x = m.regs.x) (e : m'.regs.e = m.regs.e)
    (r : m'.regs.r = m.regs.r) (s : m'.regs.s = stack)
    (unread : ∀ f ∈ stack, ¬ (f.addr.generation = m.heap.generation ∧
      ∃ head, m.heap.cell? f.addr.offset = some (.frame head)))

variable {code : Code} {m : Machine}

/-- Returning fails without a frame that can be read, and else restores what the frame saved. -/
theorem popFrame_split (hl : m.heap.Linked 0) :
    ((∀ f ∈ m.regs.s, ¬ (f.addr.generation = m.heap.generation ∧
        ∃ head, m.heap.cell? f.addr.offset = some (.frame head))) ∧ m.popFrame.2 = m) ∨
      ∃ (top : FrameRef) (head : FrameHeader) (rib : List Value),
        top.addr.generation = m.heap.generation ∧
        m.heap.cell? top.addr.offset = some (.frame head) ∧ rib.length = head.length ∧
        m.heap.HoldsValues (top.addr.offset + 1) rib ∧
        m.popFrame = (.ok (), m.popped head rib) := by
  cases hs : m.regs.s with
  | none => exact .inl ⟨by simp, by rw [popFrame_of_none hs]⟩
  | some f =>
    by_cases hf : f.addr.generation = m.heap.generation ∧
        ∃ head, m.heap.cell? f.addr.offset = some (.frame head)
    · obtain ⟨hg, head, hc⟩ := hf
      obtain ⟨rib, hlen, hrib⟩ := hl.exists_values (Nat.zero_le _) hc
      exact .inr ⟨f, head, rib, hg, hc, hlen, hrib,
        popFrame_of_frame hl hs (Nat.zero_le _) hg hc hlen hrib⟩
    · refine .inl ⟨?_, by rw [popFrame_of_stale hs (Heap.load_frame_eq_none hf)]⟩
      rintro _ ⟨⟩
      exact hf

/-- Returning from a machine that differs from `m` in accumulator, stack and counters only. -/
theorem shift_popFrame {m₁ : Machine} (hl : m.heap.Linked 0) (hh : m₁.heap = m.heap)
    (hx : m₁.regs.x = m.regs.x) (he : m₁.regs.e = m.regs.e) (hr : m₁.regs.r = m.regs.r)
    (hs : m₁.regs.s = m.regs.s ∨ (∃ var, code.node? m.regs.x = some (.nuate m₁.regs.s var)) ∨
      ∃ (ref : Ref Continuation) (k : Continuation),
        m.heap.get? ref = some k ∧ k.stack = m₁.regs.s) :
    Shift code m m₁.popFrame.2 := by
  rcases popFrame_split (hh.symm ▸ hl : m₁.heap.Linked 0) with
    ⟨hun, heq⟩ | ⟨top, head, rib, hg, hc, hlen, hrib, heq⟩
  · rw [heq]
    rw [hh] at hun
    rcases hs with hs | hsource
    · exact .stay hh hx he hr hs
    · exact .strand _ hsource hh hx he hr rfl hun
  · rw [hh] at hg hc hrib
    rw [heq]
    exact .pop top head rib hh hg hc hlen hrib rfl (by rw [← hh]; rfl)
      (Registers.r_setRib m₁.regs rib) (by rw [← hh]; rfl)

/-- Storing one record next to what was there. -/
theorem cells_extend {n : Node} {heap : Heap} {c c' : Cell} {o : Nat} (vs : List Value)
    (hc : m.Adds n c)
    (ho : (heap.extend (c :: vs.map .value)).cell? o = some c') :
    heap.cell? o = some c' ∨ m.Adds n c' := by
  rcases Heap.cell?_extend_cases ho with hold | ⟨i, -, hi⟩
  · exact .inl hold
  · cases i with
    | zero =>
      cases hi
      exact .inr hc
    | succ i =>
      simp only [List.getElem?_cons_succ, List.getElem?_map, Option.map_eq_some_iff] at hi
      obtain ⟨v, -, rfl⟩ := hi
      exact .inr (.value n v)

theorem shift_makeClosure {formals : FormalsId} {body next : NodeId}
    (hn : code.node? m.regs.x = some (.close formals body next)) :
    Shift code m (andGoto next (m.makeClosure formals body)).2 := by
  rw [makeClosure_eq]
  split
  · exact .stay rfl rfl rfl rfl rfl
  · refine .pass _ hn List.mem_cons_self ?_ rfl rfl rfl
    intro o c ho
    exact cells_extend [] (.closure formals body next) ho

theorem shift_capture {next : NodeId} (hn : code.node? m.regs.x = some (.conti next)) :
    Shift code m (andGoto next m.capture).2 := by
  rw [capture_eq]
  split
  · exact .stay rfl rfl rfl rfl rfl
  · refine .pass _ hn List.mem_cons_self ?_ rfl rfl rfl
    intro o c ho
    exact cells_extend [] (.continuation next) ho

theorem shift_assign (h : m.Rooted 0) {var : SymbolId} {next : NodeId}
    (hn : code.node? m.regs.x = some (.assign var next)) (v : Value) :
    Shift code m (andGoto next (m.assign code var v)).2 := by
  rcases assign_cases h.linked h.env code var v with
    ⟨r, head, i, hr, hc, hi, heq⟩ | ⟨g, -, heq⟩ | ⟨e, heq⟩
  · rw [heq]
    refine .pass _ hn List.mem_cons_self ?_ rfl rfl rfl
    intro o c ho
    obtain ⟨w, hw⟩ := h.linked.tail _ _ (Nat.zero_le _) hc i hi
    by_cases ho' : r.addr.offset + 1 + i = o
    · subst ho'
      have hsame := Heap.cell?_setValue_same _ _ v (Heap.cell?_lt hw)
      have hcell := ho.symm.trans hsame
      cases hcell
      exact .inr (.value _ v)
    · exact .inl ((Heap.cell?_setValue_ne _ _ _ ho').symm.trans ho)
  · rw [heq]
    exact .pass _ hn List.mem_cons_self (fun _ _ ho => .inl ho) rfl rfl rfl
  · rw [heq]
    exact .stay rfl rfl rfl rfl rfl

theorem shift_pushFrame (h : m.Rooted 0) {returnTo next : NodeId}
    (hn : code.node? m.regs.x = some (.frame returnTo next)) :
    Shift code m (andGoto next (m.pushFrame returnTo)).2 := by
  rw [pushFrame_eq h.linked.capacity_lt]
  split
  · exact .stay rfl rfl rfl rfl rfl
  · next hfit => exact .push returnTo next hn hfit rfl rfl

theorem shift_applyClosure (h : m.Rooted 0) (hn : code.node? m.regs.x = some .apply)
    {ref : Ref Closure} (ha : m.regs.a = .closure ref) :
    Shift code m (m.applyClosure code ref).2 := by
  cases hc : m.heap.get? ref with
  | none =>
    simp only [applyClosure, hc]
    exact .stay rfl rfl rfl rfl rfl
  | some c =>
    cases hf : code.formals? c.formals with
    | none =>
      simp only [applyClosure, hc, hf]
      exact .stay rfl rfl rfl rfl rfl
    | some names =>
      rw [applyClosure_eq h.linked.capacity_lt hc hf]
      split
      · exact .stay rfl rfl rfl rfl rfl
      · next harity =>
        split
        · exact .stay rfl rfl rfl rfl rfl
        · next hfit =>
          exact .enter ref c names hn ha hc hf (Classical.not_not.mp harity) hfit rfl rfl

theorem shift_applyContinuation (h : m.Rooted 0) (ref : Ref Continuation) :
    Shift code m (m.applyContinuation ref).2 := by
  cases hk : m.heap.get? ref with
  | none =>
    simp only [applyContinuation, hk]
    exact .stay rfl rfl rfl rfl rfl
  | some k =>
    by_cases hr : m.regs.r.length = 1
    · obtain ⟨v, hv⟩ := List.length_eq_one_iff.mp hr
      rw [applyContinuation_eq hk hv]
      exact shift_popFrame h.linked rfl rfl rfl rfl (.inr (.inr ⟨ref, k, hk, rfl⟩))
    · rw [applyContinuation_of_refused hk hr]
      exact .stay rfl rfl rfl rfl rfl

theorem shift_applyPrimitive (h : m.Rooted 0) (id : PrimitiveId) :
    Shift code m (m.applyPrimitive id).2 := by
  unfold applyPrimitive
  split
  · exact .stay rfl rfl rfl rfl rfl
  · split
    · split
      · exact .stay rfl rfl rfl rfl rfl
      · exact shift_popFrame h.linked rfl rfl rfl rfl (.inl rfl)
    · exact .stay rfl rfl rfl rfl rfl

theorem shift_apply (h : m.Rooted 0) (hn : code.node? m.regs.x = some .apply) :
    Shift code m (m.apply code).2 := by
  unfold apply
  split
  · next ref ha => exact shift_applyClosure h hn ha
  · exact shift_applyContinuation h _
  · exact shift_applyPrimitive h _
  · exact .stay rfl rfl rfl rfl rfl

theorem snd_andContinue (r : Result Unit) : (andContinue r).2 = r.2 := by
  obtain ⟨e | u, m₁⟩ := r <;> rfl

theorem execute_shift (h : m.Rooted 0) {n : Node} (hn : code.node? m.regs.x = some n) :
    Shift code m (m.execute code n).2 := by
  cases n with
  | halt => exact .stay rfl rfl rfl rfl rfl
  | refer var next =>
    simp only [execute]
    split
    · exact .stay rfl rfl rfl rfl rfl
    · exact .pass _ hn List.mem_cons_self (fun _ _ ho => .inl ho) rfl rfl rfl
  | constant v next =>
    exact .pass _ hn List.mem_cons_self (fun _ _ ho => .inl ho) rfl rfl rfl
  | close formals body next => exact shift_makeClosure hn
  | test onTrue onFalse =>
    refine .pass _ hn ?_ (fun _ _ ho => .inl ho) rfl rfl rfl
    simp only [execute, goto, Node.onward]
    split <;> simp
  | assign var next => exact shift_assign h hn _
  | conti next => exact shift_capture hn
  | nuate stack var =>
    cases var with
    | none =>
      simp only [execute, snd_andContinue, reinstate_of_linked h.linked]
      exact shift_popFrame h.linked rfl rfl rfl rfl (.inr (.inl ⟨none, hn⟩))
    | some var =>
      simp only [execute]
      split
      · exact .stay rfl rfl rfl rfl rfl
      · next v _ =>
        have hl : (m.setAccumulator v).heap.Linked 0 := h.linked
        simp only [snd_andContinue, reinstate_of_linked hl]
        exact shift_popFrame h.linked rfl rfl rfl rfl (.inr (.inl ⟨some var, hn⟩))
  | frame returnTo next => exact shift_pushFrame h hn
  | argument next => exact .collect next hn rfl rfl rfl (Registers.r_collect _) rfl
  | apply =>
    simp only [execute, snd_andContinue]
    exact shift_apply h hn
  | ret =>
    simp only [execute, snd_andContinue]
    exact shift_popFrame h.linked rfl rfl rfl rfl (.inl rfl)

/-- Counting an instruction does not show. -/
theorem Shift.of_tick {m' : Machine} (h : Shift code m.tick m') : Shift code m m' := by
  cases h with
  | stay heap x e r s => exact .stay heap x e r s
  | pass n node x cells e r s =>
    refine .pass n node x (fun o c ho => (cells o c ho).imp id fun hc => ?_) e r s
    cases hc with
    | value _ v => exact .value _ v
    | closure formals body next => exact .closure formals body next
    | continuation next => exact .continuation next
  | collect next node heap x e r s => exact .collect next node heap x e r s
  | push returnTo next node room heap regs => exact .push returnTo next node room heap regs
  | pop top head rib heap live stored length values x e r s =>
    exact .pop top head rib heap live stored length values x e r s
  | enter ref c names node a stored formals arity room heap regs =>
    exact .enter ref c names node a stored formals arity room heap regs
  | strand stack source heap x e r s unread => exact .strand stack source heap x e r s unread

/-- What a step can do. -/
theorem step_shift (h : m.Rooted 0) (code : Code) : Shift code m (m.step code).2 := by
  unfold step
  split
  · exact .stay rfl rfl rfl rfl rfl
  · split
    · exact .stay rfl rfl rfl rfl rfl
    · next n hn => exact (execute_shift (h.congr rfl rfl : m.tick.Rooted 0) hn).of_tick

end Machine

end ClosureMachine
