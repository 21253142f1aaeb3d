import ClosureMachine.Proofs.Code.Growth
import ClosureMachine.Proofs.Heap.Depth
import ClosureMachine.Proofs.Machine.Rooted

/-!
Coherence: the invariant of every machine that runs one code at a time, whatever that code is. The
heap is linked, the depth register counts the frames on the control stack, and so does the depth
stored in every continuation. There is one exception. An instruction that installs a control stack
of its own does so before it looks whether the stack can be used, and when it cannot, the machine
is left with it; but it is also left at that instruction, so nothing ever happens to that stack.

`step_coherent` is the step lemma: a step of a coherent machine leaves it coherent and its heap
keeps every record.
-/

namespace ClosureMachine

/-- Continuations know the depth of their stacks. -/
def Heap.Depths (heap : Heap) : Prop :=
  ∀ o k, heap.cell? o = some (.continuation k) → heap.Depth k.stack k.depth

theorem Heap.Depths.extend {heap : Heap} (h : heap.Depths) (c : Cell) (vs : List Value)
    (hc : ∀ k, c = .continuation k → heap.Depth k.stack k.depth) :
    (heap.extend (c :: vs.map .value)).Depths := by
  have hk := Heap.Keeps.extend 0 heap (c :: vs.map .value)
  intro o k ho
  rcases Heap.cell?_extend_cases ho with hold | ⟨i, -, hi⟩
  · exact (h o k hold).mono hk
  · cases i with
    | zero =>
      simp only [List.getElem?_cons_zero, Option.some.injEq] at hi
      exact (hc k hi).mono hk
    | succ i => simp at hi

theorem Heap.Depths.setValue {heap : Heap} (h : heap.Depths) {o : Nat} {v : Value}
    (hk : heap.Keeps 0 (heap.setValue o v)) : (heap.setValue o v).Depths := by
  intro o' k ho
  by_cases heq : o = o'
  · subst heq
    by_cases hlt : o < heap.used
    · rw [Heap.cell?_setValue_same _ _ _ hlt] at ho
      cases ho
    · have := Heap.cell?_lt ho
      simp at this
      omega
  · rw [Heap.cell?_setValue_ne _ _ _ heq] at ho
    exact (h o' k ho).mono hk

namespace Machine

/-- A coherent machine apart from its control stack. -/
structure Sound (m : Machine) : Prop where
  rooted : m.Rooted 0
  depths : m.heap.Depths

/-- A coherent machine whose control stack is its own. -/
structure Settled (m : Machine) : Prop where
  sound : m.Sound
  depth : m.heap.Depth m.regs.s m.depth

/-- The invariant of a machine that runs `code`. -/
structure Coherent (code : Code) (m : Machine) : Prop where
  sound : m.Sound
  stack : m.heap.Depth m.regs.s m.depth ∨ ∃ var, code.node? m.regs.x = some (.nuate m.regs.s var)

theorem Settled.coherent {m : Machine} (h : m.Settled) (code : Code) : m.Coherent code :=
  ⟨h.sound, .inl h.depth⟩

theorem Settled.held {m : Machine} (h : m.Settled) : m.Held 0 := by
  intro r hr
  have hd := h.depth
  rw [Option.mem_def.mp hr] at hd
  obtain ⟨head, -, -, hg, hc, -⟩ := hd.of_some
  exact ⟨hg, Nat.zero_le _, Heap.cell?_lt hc, head, hc⟩

/-- A settled machine whose heap keeps the records of an earlier heap. -/
structure Follows (heap : Heap) (m : Machine) : Prop where
  settled : m.Settled
  keeps : heap.Keeps 0 m.heap

variable {m m' : Machine}

/-- Only the heap, the environment, the stack and the depth matter. -/
theorem Settled.congr (h : m.Settled) (hh : m'.heap = m.heap) (he : m'.regs.e = m.regs.e)
    (hs : m'.regs.s = m.regs.s) (hd : m'.depth = m.depth) : m'.Settled := by
  refine ⟨⟨h.sound.rooted.congr hh he, hh ▸ h.sound.depths⟩, ?_⟩
  rw [hh, hs, hd]
  exact h.depth

theorem Follows.of_same (h : m.Settled) (hh : m'.heap = m.heap) (he : m'.regs.e = m.regs.e)
    (hs : m'.regs.s = m.regs.s) (hd : m'.depth = m.depth) : m'.Follows m.heap :=
  ⟨h.congr hh he hs hd, hh ▸ Heap.Keeps.refl _ _⟩

private theorem Follows.of_advanced {heap : Heap} (ha : m'.Advanced 0 heap)
    (hds : m'.heap.Depths) (hd : m'.heap.Depth m'.regs.s m'.depth) : m'.Follows heap :=
  ⟨⟨⟨ha.rooted, hds⟩, hd⟩, ha.keeps⟩

theorem follows_makeClosure (h : m.Settled) (formals : FormalsId) (body : NodeId) :
    (m.makeClosure formals body).2.Follows m.heap := by
  rw [makeClosure_eq]
  split
  · exact .of_same h rfl rfl rfl rfl
  · next hfit =>
    have ha := advanced_withClosure h.sound.rooted h.held formals body hfit
    refine .of_advanced ha ?_ (h.depth.mono ha.keeps)
    exact h.sound.depths.extend _ [] (fun k hk => by cases hk)

theorem follows_capture (h : m.Settled) : m.capture.2.Follows m.heap := by
  rw [capture_eq]
  split
  · exact .of_same h rfl rfl rfl rfl
  · next hfit =>
    have ha := advanced_withContinuation h.sound.rooted h.held hfit
    refine .of_advanced ha ?_ (h.depth.mono ha.keeps)
    refine h.sound.depths.extend _ [] (fun k hk => ?_)
    cases hk
    exact h.depth

theorem follows_pushFrame (h : m.Settled) (returnTo : NodeId) :
    (m.pushFrame returnTo).2.Follows m.heap := by
  have hr := h.sound.rooted
  rw [pushFrame_eq hr.linked.capacity_lt]
  split
  · exact .of_same h rfl rfl rfl rfl
  · next hfit =>
    have ha := advanced_pushed hr h.held returnTo hfit
    refine .of_advanced ha (h.sound.depths.extend _ _ (fun k hk => by cases hk)) ?_
    have hd := h.depth.mono ha.keeps
    refine .frame rfl (Heap.cell?_store_head m.heap _ m.regs.r) ?_
    change (m.pushed returnTo).heap.Depth ((Link.ofRef? m.regs.s).resolve m.heap.generation) _
    rw [hr.linked.resolve_frame h.held]
    exact hd

theorem follows_popFrame (h : m.Settled) : m.popFrame.2.Follows m.heap := by
  rcases popFrame_cases h.sound.rooted h.held with
    ⟨-, heq⟩ | ⟨top, head, rib, hs, htop, hc, -, -, heq⟩
  · rw [heq]
    exact .of_same h rfl rfl rfl rfl
  · rw [heq]
    refine .of_advanced (advanced_popped h.sound.rooted htop.base_le hc rib) h.sound.depths ?_
    have hd := h.depth
    rw [hs] at hd
    obtain ⟨head', n, hn, -, hc', hbelow⟩ := hd.of_some
    rw [hc] at hc'
    cases hc'
    change m.heap.Depth (head.link.resolve m.heap.generation) (m.depth - 1)
    rw [hn]
    exact hbelow

theorem follows_assign (h : m.Settled) (code : Code) (var : SymbolId) (v : Value) :
    (m.assign code var v).2.Follows m.heap := by
  rcases assign_cases h.sound.rooted.linked h.sound.rooted.env code var v with
    ⟨r, head, i, hr, hc, hi, heq⟩ | ⟨g, -, heq⟩ | ⟨e, heq⟩
  · have ha := advanced_assign h.sound.rooted h.held code var v
    rw [heq] at ha ⊢
    exact .of_advanced ha (h.sound.depths.setValue ha.keeps) (h.depth.mono ha.keeps)
  · rw [heq]
    exact .of_same h rfl rfl rfl rfl
  · rw [heq]
    exact .of_same h rfl rfl rfl rfl

theorem follows_applyClosure (h : m.Settled) (code : Code) (r : Ref Closure) :
    (m.applyClosure code r).2.Follows m.heap := by
  have hr := h.sound.rooted
  cases hc : m.heap.get? r with
  | none =>
    simp only [applyClosure, hc]
    exact .of_same h rfl rfl rfl rfl
  | some c =>
    cases hn : code.formals? c.formals with
    | none =>
      simp only [applyClosure, hc, hn]
      exact .of_same h rfl rfl rfl rfl
    | some names =>
      rw [applyClosure_eq hr.linked.capacity_lt hc hn]
      split
      · exact .of_same h rfl rfl rfl rfl
      · split
        · exact .of_same h rfl rfl rfl rfl
        · next hfit =>
          have ha := advanced_entered hr h.held hc (Nat.zero_le _) hfit
          exact .of_advanced ha (h.sound.depths.extend _ _ (fun k hk => by cases hk))
            (h.depth.mono ha.keeps)

/-- A stored continuation may be made current at any time. -/
theorem settled_thrown (h : m.Settled) {r : Ref Continuation} {k : Continuation}
    (hk : m.heap.get? r = some k) (v : Value) : (m.thrown k v).Settled := by
  obtain ⟨-, hc⟩ := (Heap.get?_continuation_iff _ _ _).mp hk
  exact ⟨⟨h.sound.rooted.congr rfl rfl, h.sound.depths⟩, h.sound.depths _ _ hc⟩

theorem follows_applyContinuation (h : m.Settled) (r : Ref Continuation) :
    (m.applyContinuation r).2.Follows m.heap := by
  cases hk : m.heap.get? r with
  | none =>
    simp only [applyContinuation, hk]
    exact .of_same h rfl rfl rfl rfl
  | some k =>
    rcases hr : m.regs.r with _ | ⟨v, _ | ⟨w, rest⟩⟩
    · simp only [applyContinuation, hk, hr]
      exact .of_same h rfl rfl rfl rfl
    · rw [applyContinuation_eq hk hr]
      exact follows_popFrame (settled_thrown h hk v)
    · simp only [applyContinuation, hk, hr]
      exact .of_same h rfl rfl rfl rfl

theorem follows_applyPrimitive (h : m.Settled) (id : PrimitiveId) :
    (m.applyPrimitive id).2.Follows m.heap := by
  unfold applyPrimitive
  split
  · exact .of_same h rfl rfl rfl rfl
  · split
    · split
      · exact .of_same h rfl rfl rfl rfl
      · next v _ =>
        have hv : (m.setAccumulator v).Settled := h.congr rfl rfl rfl rfl
        exact follows_popFrame hv
    · exact .of_same h rfl rfl rfl rfl

theorem follows_apply (h : m.Settled) (code : Code) : (m.apply code).2.Follows m.heap := by
  unfold apply
  split
  · exact follows_applyClosure h code _
  · exact follows_applyContinuation h _
  · exact follows_applyPrimitive h _
  · exact .of_same h rfl rfl rfl rfl

private theorem follows_andGoto {heap : Heap} {r : Result Unit} (h : r.2.Follows heap)
    (next : NodeId) : (andGoto next r).2.Follows heap := by
  obtain ⟨e | u, m'⟩ := r
  · exact h
  · exact ⟨h.settled.congr rfl rfl rfl rfl, h.keeps⟩

private theorem follows_andContinue {heap : Heap} {r : Result Unit} (h : r.2.Follows heap) :
    (andContinue r).2.Follows heap := by
  obtain ⟨e | u, m'⟩ := r
  · exact h
  · exact h

/-- Every instruction but the one that installs a stack keeps a settled machine settled. -/
theorem follows_execute (h : m.Settled) (code : Code) {n : Node}
    (hn : ∀ stack var, n ≠ .nuate stack var) : (m.execute code n).2.Follows m.heap := by
  cases n with
  | nuate stack var => exact absurd rfl (hn stack var)
  | halt => exact .of_same h rfl rfl rfl rfl
  | refer var next =>
    simp only [execute]
    split
    · exact .of_same h rfl rfl rfl rfl
    · exact .of_same h rfl rfl rfl rfl
  | constant v next => exact .of_same h rfl rfl rfl rfl
  | close formals body next => exact follows_andGoto (follows_makeClosure h formals body) next
  | test onTrue onFalse => exact .of_same h rfl rfl rfl rfl
  | assign var next => exact follows_andGoto (follows_assign h code var m.regs.a) next
  | conti next => exact follows_andGoto (follows_capture h) next
  | frame returnTo next => exact follows_andGoto (follows_pushFrame h returnTo) next
  | argument next => exact .of_same h rfl rfl rfl rfl
  | apply => exact follows_andContinue (follows_apply h code)
  | ret => exact follows_andContinue (follows_popFrame h)

/-- A stack whose top frame can be read may be installed at any time. -/
theorem settled_reinstated (h : m.Sound) {stack : Option FrameRef}
    (hs : ∀ r ∈ stack, r.addr.generation = m.heap.generation ∧
      ∃ head, m.heap.cell? r.addr.offset = some (.frame head)) :
    (m.reinstated stack).Settled := by
  refine ⟨⟨h.rooted.congr rfl rfl, h.depths⟩, ?_⟩
  obtain ⟨n, hd, hn⟩ := h.rooted.linked.exists_counted (Heap.held_of_read hs)
  change m.heap.Depth stack (((CallFrame.chain? m.heap stack).map Array.size).getD m.depth)
  rw [hn]
  exact hd

/-- An installed stack is either a control stack of the machine or refused on the spot. -/
theorem reinstated_cases (h : m.Sound) (stack : Option FrameRef) :
    (m.reinstated stack).Settled ∨
      ∃ e, (m.reinstated stack).popFrame = (.error e, m.reinstated stack) := by
  cases stack with
  | none => exact .inl (settled_reinstated h (by simp))
  | some r =>
    by_cases hr : r.addr.generation = m.heap.generation ∧
        ∃ head, m.heap.cell? r.addr.offset = some (.frame head)
    · exact .inl (settled_reinstated h (by rintro _ ⟨⟩; exact hr))
    · exact .inr ⟨_, popFrame_of_stale rfl (Heap.load_frame_eq_none hr)⟩

private theorem coherent_reinstate (h : m.Sound) {code : Code} {stack : Option FrameRef}
    {var : Option SymbolId} (hn : code.node? m.regs.x = some (.nuate stack var)) :
    (andContinue (m.reinstate stack none)).2.Coherent code ∧
      m.heap.Keeps 0 (andContinue (m.reinstate stack none)).2.heap := by
  rw [reinstate_of_linked h.rooted.linked]
  rcases reinstated_cases h stack with hs | ⟨e, heq⟩
  · have hf := follows_andContinue (follows_popFrame hs)
    exact ⟨hf.settled.coherent code, hf.keeps⟩
  · rw [heq]
    exact ⟨⟨⟨h.rooted.congr rfl rfl, h.depths⟩, .inr ⟨var, hn⟩⟩, Heap.Keeps.refl _ _⟩

theorem Sound.congr (h : m.Sound) (hh : m'.heap = m.heap) (he : m'.regs.e = m.regs.e) :
    m'.Sound := ⟨h.rooted.congr hh he, hh ▸ h.depths⟩

/-- A step leaves the machine coherent and keeps every record of its heap. -/
theorem step_coherent {code : Code} (h : m.Coherent code) :
    (m.step code).2.Coherent code ∧ m.heap.Keeps 0 (m.step code).2.heap := by
  unfold step
  split
  · exact ⟨h, Heap.Keeps.refl _ _⟩
  · split
    · exact ⟨h, Heap.Keeps.refl _ _⟩
    · next n hn =>
      have hsound : m.tick.Sound := h.sound.congr rfl rfl
      by_cases hnu : ∃ stack var, n = .nuate stack var
      · obtain ⟨stack, var, rfl⟩ := hnu
        cases var with
        | none => exact coherent_reinstate hsound hn
        | some var =>
          simp only [execute]
          split
          · exact ⟨⟨hsound, h.stack⟩, Heap.Keeps.refl _ _⟩
          · next v _ =>
            have hv : (m.tick.setAccumulator v).Sound := hsound.congr rfl rfl
            exact coherent_reinstate hv hn
      · rcases h.stack with hd | ⟨var, hx⟩
        · have hset : m.tick.Settled := ⟨hsound, hd⟩
          have hf := follows_execute hset code (fun stack var e => hnu ⟨stack, var, e⟩)
          exact ⟨hf.settled.coherent code, hf.keeps⟩
        · rw [hn] at hx
          cases hx
          exact absurd ⟨_, _, rfl⟩ hnu

/-- A whole run leaves the machine coherent and keeps every record of its heap. -/
theorem proceed_coherent {code : Code} (expired : Nat → Bool) (fuel : Nat)
    (h : m.Coherent code) :
    (proceed code expired fuel m).2.Coherent code ∧
      m.heap.Keeps 0 (proceed code expired fuel m).2.heap := by
  induction fuel generalizing m with
  | zero => exact ⟨h, Heap.Keeps.refl _ _⟩
  | succ fuel ih =>
    unfold proceed
    split
    · exact ⟨h, Heap.Keeps.refl _ _⟩
    · obtain ⟨hc, hk⟩ := step_coherent h
      split
      · next heq =>
        rw [heq] at hc hk
        exact ⟨hc, hk⟩
      · next heq =>
        rw [heq] at hc hk
        exact ⟨hc, hk⟩
      · next heq =>
        rw [heq] at hc hk
        obtain ⟨hc', hk'⟩ := ih hc
        exact ⟨hc', hk.trans hk'⟩

/-- Starting anew keeps the heap and forgets the rest. -/
theorem Sound.start (h : m.Sound) (entry : NodeId) : (m.start entry).Settled :=
  ⟨⟨h.rooted.start entry, h.depths⟩, .empty⟩

theorem Coherent.start {code : Code} (h : m.Coherent code) (entry : NodeId) (code' : Code) :
    (m.start entry).Coherent code' :=
  (h.sound.start entry).coherent code'

end Machine

end ClosureMachine
