import ClosureMachine.Proofs.Heap.Unlinked
import ClosureMachine.Proofs.Machine.History

/-!
Machines under hosts that stop at nothing. A host may step with other code at any time, also after
a failure, and code may install any control stack. Then the links between call frames cannot be
relied on. Since a cell is never read as something else than was written to it, nothing else depends
on them: with the links and the stacks forgotten (`Machine.unlinked`), the machine is rooted, and
stays so whatever is done with it (`step_scoped`, `Reachable.scoped`). Of a machine whose blocks are
bytes this is true only as long as control stacks are current.
-/

namespace ClosureMachine

namespace Machine

variable {m m' : Machine} {code : Code}

/-- The machine with all control stacks forgotten. -/
def unlinked (m : Machine) : Machine :=
  { m with heap := m.heap.unlinked, regs := { m.regs with s := none }, depth := 0 }

/-- Apart from control stacks, all that the machine refers to is stored. -/
structure Scoped (m : Machine) : Prop where
  rooted : m.unlinked.Rooted 0

theorem held_unlinked (m : Machine) : m.unlinked.Held 0 := nofun

/-- Scoping looks at the heap and the environment only. -/
theorem Scoped.congr (h : m.Scoped) (hh : m'.heap = m.heap) (he : m'.regs.e = m.regs.e) :
    m'.Scoped :=
  ⟨h.rooted.congr (congrArg Heap.unlinked hh) he⟩

theorem Scoped.used_le (h : m.Scoped) : m.heap.used ≤ m.heap.capacity := by
  have hle := h.rooted.linked.used_le
  change m.heap.unlinked.used ≤ m.heap.capacity at hle
  rwa [Heap.unlinked_used] at hle

theorem Scoped.capacity_lt (h : m.Scoped) : m.heap.capacity < wordLimit :=
  h.rooted.linked.capacity_lt

theorem Scoped.descends (h : m.Scoped) : m.heap.Descends := by
  intro r f hf p hp
  rw [← Heap.load_env_unlinked] at hf
  obtain ⟨head, hget, rfl⟩ := Option.map_eq_some_iff.mp hf
  obtain ⟨hg, hc⟩ := (Heap.get?_environment_iff _ _ _).mp hget
  have hlink := h.rooted.linked.link _ _ (Nat.zero_le _) hc
  change p ∈ head.parent.resolve r.addr.generation at hp
  rw [hg] at hp
  exact (hlink p hp).lt_bound

/-! ## Actions -/

theorem scoped_makeClosure (h : m.Scoped) (formals : FormalsId) (body : NodeId) :
    (m.makeClosure formals body).2.Scoped := by
  rw [makeClosure_eq]
  split
  · exact h
  · next hfit =>
    rw [← Heap.unlinked_remaining] at hfit
    have ha := advanced_withClosure h.rooted m.held_unlinked formals body hfit
    exact ⟨ha.rooted.congr (Heap.unlinked_extend _ _) rfl⟩

theorem scoped_capture (h : m.Scoped) : m.capture.2.Scoped := by
  rw [capture_eq]
  split
  · exact h
  · next hfit =>
    rw [← Heap.unlinked_remaining] at hfit
    have ha := advanced_withContinuation h.rooted m.held_unlinked hfit
    exact ⟨ha.rooted.congr (Heap.unlinked_extend _ _) rfl⟩

theorem map_unlinked_values (vs : List Value) :
    (vs.map Cell.value).map Cell.unlinked = vs.map Cell.value := by
  rw [List.map_map]
  rfl

theorem scoped_pushFrame (h : m.Scoped) (returnTo : NodeId) :
    (m.pushFrame returnTo).2.Scoped := by
  rw [pushFrame_eq h.capacity_lt]
  split
  · exact h
  · next hfit =>
    rw [← Heap.unlinked_remaining] at hfit
    have ha := advanced_pushed h.rooted m.held_unlinked returnTo hfit
    refine ⟨ha.rooted.congr ?_ rfl⟩
    change (m.heap.extend _).unlinked = _
    rw [Heap.unlinked_extend, List.map_cons, map_unlinked_values]
    rfl

theorem scoped_applyClosure (h : m.Scoped) (ref : Ref Closure) :
    (m.applyClosure code ref).2.Scoped := by
  cases hc : m.heap.get? ref with
  | none =>
    simp only [applyClosure, hc]
    exact h
  | some c =>
    cases hn : code.formals? c.formals with
    | none =>
      simp only [applyClosure, hc, hn]
      exact h
    | some names =>
      rw [applyClosure_eq h.capacity_lt hc hn]
      split
      · exact h
      · split
        · exact h
        · next hfit =>
          rw [← Heap.unlinked_remaining] at hfit
          rw [← Heap.get?_closure_unlinked] at hc
          have ha := advanced_entered h.rooted m.held_unlinked hc (Nat.zero_le _) hfit
          refine ⟨ha.rooted.congr ?_ ?_⟩
          · change (m.heap.extend _).unlinked = _
            rw [Heap.unlinked_extend, List.map_cons, map_unlinked_values]
            rfl
          · change some (⟨⟨m.heap.used, _⟩⟩ : EnvRef) = some ⟨⟨m.heap.unlinked.used, _⟩⟩
            rw [Heap.unlinked_used]
            rfl

theorem assign_unlinked (var : SymbolId) (v : Value) :
    (m.unlinked.assign code var v).2 = (m.assign code var v).2.unlinked := by
  have hfind : Binding.find m.unlinked.heap code m.unlinked.regs.e var =
      Binding.find m.heap code m.regs.e var := Heap.find_unlinked _ _ _ _
  cases hb : Binding.find m.heap code m.regs.e var with
  | slot values index =>
    have hset := Heap.setAt_unlinked m.heap values index v
    simp only [assign, hfind, hb]
    rw [show m.unlinked.heap.setAt values index v = _ from hset]
    rcases m.heap.setAt values index v with ⟨_ | _, _⟩ <;> rfl
  | free =>
    have hset : m.unlinked.globals.set? var v = m.globals.set? var v := rfl
    simp only [assign, hfind, hb, hset]
    split <;> rfl
  | broken => simp only [assign, hfind, hb]
  | endless => simp only [assign, hfind, hb]

theorem scoped_assign (h : m.Scoped) (var : SymbolId) (v : Value) :
    (m.assign code var v).2.Scoped := by
  have ha := advanced_assign h.rooted m.held_unlinked code var v
  rw [assign_unlinked] at ha
  exact ⟨ha.rooted⟩

/-- Returning fails and changes nothing, or it takes the environment of a stored frame. -/
theorem popFrame_inversion (m : Machine) :
    (∃ e, m.popFrame = (.error e, m)) ∨
      ∃ (top : FrameRef) (head : FrameHeader) (rib : List Value),
        m.heap.cell? top.addr.offset = some (.frame head) ∧
        m.popFrame = (.ok (), m.popped head rib) := by
  cases hs : m.regs.s with
  | none => exact .inl ⟨_, popFrame_of_none hs⟩
  | some top =>
    cases hget : m.heap.get? top with
    | none =>
      have hload : CallFrame.load? m.heap top = none := by rw [CallFrame.load?, hget]; rfl
      exact .inl ⟨_, popFrame_of_stale hs hload⟩
    | some head =>
      obtain ⟨hg, hc⟩ := (Heap.get?_frame_iff _ _ _).mp hget
      cases hrib : m.heap.slice? (top.tail Cell Value head.length) with
      | none =>
        refine .inl ⟨.malformed .staleArguments, ?_⟩
        simp only [popFrame, hs, CallFrame.load?, hget, Option.map_some, hrib]
      | some rib =>
        refine .inr ⟨top, head, rib, hc, ?_⟩
        simp only [popFrame, hs, CallFrame.load?, hget, Option.map_some, hrib, hg]
        rfl

theorem heap_popFrame (m : Machine) : m.popFrame.2.heap = m.heap := by
  rcases m.popFrame_inversion with ⟨e, he⟩ | ⟨top, head, rib, -, he⟩
  · rw [he]
  · rw [he]
    rfl

theorem heap_reinstate (m : Machine) (stack : Option FrameRef) :
    (m.reinstate stack none).2.heap = m.heap := by
  rcases m.reinstate_none_cases stack with heq | heq
  · rw [heq, heap_popFrame]
    rfl
  · rw [heq]
    rfl

theorem scoped_popFrame (h : m.Scoped) : m.popFrame.2.Scoped := by
  rcases m.popFrame_inversion with ⟨e, he⟩ | ⟨top, head, rib, hc, he⟩
  · rw [he]
    exact h
  · rw [he]
    have hc' : m.unlinked.heap.cell? top.addr.offset = some (.frame { head with link := .none }) := by
      change m.heap.unlinked.cell? _ = _
      rw [Heap.cell?_unlinked, hc]
      rfl
    exact ⟨(advanced_popped h.rooted (Nat.zero_le _) hc' rib).rooted.congr rfl rfl⟩

theorem scoped_reinstate (h : m.Scoped) (stack : Option FrameRef) :
    (m.reinstate stack none).2.Scoped := by
  have hinstalled : (m.reinstated stack).Scoped := h.congr rfl rfl
  rcases m.reinstate_none_cases stack with heq | heq
  · rw [heq]
    exact scoped_popFrame hinstalled
  · rw [heq]
    exact hinstalled

theorem scoped_applyContinuation (h : m.Scoped) (ref : Ref Continuation) :
    (m.applyContinuation ref).2.Scoped := by
  unfold applyContinuation
  split
  · exact h
  · split
    · exact scoped_popFrame (h.congr rfl rfl)
    · exact h

theorem scoped_applyPrimitive (h : m.Scoped) (id : PrimitiveId) :
    (m.applyPrimitive id).2.Scoped := by
  unfold applyPrimitive
  split
  · exact h
  · split
    · split
      · exact h
      · exact scoped_popFrame (h.congr rfl rfl)
    · exact h

theorem scoped_apply (h : m.Scoped) : (m.apply code).2.Scoped := by
  unfold apply
  split
  · exact scoped_applyClosure h _
  · exact scoped_applyContinuation h _
  · exact scoped_applyPrimitive h _
  · exact h

theorem scoped_andGoto {r : Result Unit} (h : r.2.Scoped) (next : NodeId) :
    (andGoto next r).2.Scoped := by
  obtain ⟨_ | _, _⟩ := r
  · exact h
  · exact h.congr rfl rfl

theorem scoped_andContinue {r : Result Unit} (h : r.2.Scoped) : (andContinue r).2.Scoped := by
  obtain ⟨_ | _, _⟩ := r <;> exact h

/-! ## Steps and histories -/

theorem execute_scoped (h : m.Scoped) (n : Node) : (m.execute code n).2.Scoped := by
  cases n with
  | halt => exact h
  | refer var next =>
    simp only [execute]
    split
    · exact h
    · exact h.congr rfl rfl
  | constant v next => exact h.congr rfl rfl
  | close formals body next => exact scoped_andGoto (scoped_makeClosure h formals body) next
  | test onTrue onFalse => exact h.congr rfl rfl
  | assign var next => exact scoped_andGoto (scoped_assign h var m.regs.a) next
  | conti next => exact scoped_andGoto (scoped_capture h) next
  | nuate stack var =>
    cases var with
    | none => exact scoped_andContinue (scoped_reinstate h stack)
    | some var =>
      simp only [execute]
      split
      · exact h
      · next v _ =>
        have hset : (m.setAccumulator v).Scoped := h.congr rfl rfl
        exact scoped_andContinue (scoped_reinstate hset stack)
  | frame returnTo next => exact scoped_andGoto (scoped_pushFrame h returnTo) next
  | argument next => exact h.congr rfl rfl
  | apply => exact scoped_andContinue (scoped_apply h)
  | ret => exact scoped_andContinue (scoped_popFrame h)

/-- No step can unscope a machine, whatever the code. -/
theorem step_scoped (h : m.Scoped) (code : Code) : (m.step code).2.Scoped := by
  unfold step
  split
  · exact h
  · split
    · exact h
    · exact execute_scoped (m := m.tick) (h.congr rfl rfl) _

theorem proceed_scoped (h : m.Scoped) (code : Code) (expired : Nat → Bool) (fuel : Nat) :
    (proceed code expired fuel m).2.Scoped := by
  induction fuel generalizing m with
  | zero => exact h
  | succ fuel ih =>
    have hstep := step_scoped h code
    unfold proceed
    split
    · exact h
    · split
      · next heq => rwa [heq] at hstep
      · next heq => rwa [heq] at hstep
      · next heq =>
        rw [heq] at hstep
        exact ih hstep

/-- The machines that a host can bring about, with any code at any time. -/
inductive Reachable : Machine → Prop
  | create {settings : Settings} {gens gens' : Generations} {m : Machine} :
    Machine.create settings gens = .ok (m, gens') → Reachable m
  | start {m : Machine} (entry : NodeId) : Reachable m → Reachable (m.start entry)
  | step {m : Machine} (code : Code) : Reachable m → Reachable (m.step code).2
  | run {m : Machine} (code : Code) (entry : NodeId) (expired : Nat → Bool) (fuel : Nat) :
    Reachable m → Reachable (m.runUntil code entry expired fuel).2
  | adjust {m : Machine} (globals : Globals) (primitives : Array Primitive) (limit : Option Nat) :
    Reachable m → Reachable { m with globals, primitives, limit }
  | reset {m m' : Machine} {gens gens' : Generations} :
    Reachable m → m.reset gens = .ok (m', gens') → Reachable m'

theorem scoped_of_unused (hw : m.heap.capacity < wordLimit) (hregion : m.heap.region = #[])
    (he : m.regs.e = none) : m.Scoped := by
  have hempty : m.unlinked.heap.region = #[] := by
    change m.heap.region.map Cell.unlinked = #[]
    rw [hregion, Array.map_empty]
  have hl : m.unlinked.heap.Linked 0 := .of_unused hempty hw
  refine ⟨⟨hl, Nat.zero_le _, ?_⟩⟩
  intro r hr
  have hnone : m.unlinked.regs.e = none := he
  rw [hnone] at hr
  cases hr

theorem scoped_start (h : m.Scoped) (entry : NodeId) : (m.start entry).Scoped :=
  ⟨h.rooted.start entry⟩

theorem Reachable.scoped (h : m.Reachable) : m.Scoped := by
  induction h with
  | create hc =>
    obtain ⟨heap, hw, hregion, rfl⟩ := create_eq_ok hc
    exact scoped_of_unused hw hregion rfl
  | start entry _ ih => exact scoped_start ih entry
  | step code _ ih => exact step_scoped ih code
  | run code entry expired fuel _ ih =>
    exact proceed_scoped (scoped_start ih entry) code expired fuel
  | adjust globals primitives limit _ ih => exact ih.congr rfl rfl
  | reset _ hr ih =>
    obtain ⟨heap, hcap, hregion, rfl⟩ := reset_eq_ok hr
    exact scoped_of_unused (hcap ▸ ih.capacity_lt) hregion rfl

end Machine

end ClosureMachine
