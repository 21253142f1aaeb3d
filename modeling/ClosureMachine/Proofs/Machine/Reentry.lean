import ClosureMachine.Proofs.Machine.StaleStacks
import ClosureMachine.Proofs.Machine.Twins

/-!
Two ways back into a control stack. A continuation can be applied, which takes the depth that was
stored when it was captured; or its stack can be taken out of it and installed by an instruction,
which counts the frames. In a sound machine every stored depth is the number of frames
(`Sound.stored_depth`), so both ways lead to the same state, and only the count of continuations
invoked tells them apart (`reentries_agree`).

That needs a host that does not store a control stack while it cannot be read. Otherwise a frame may
come to lie under a captured stack after the capture, and the two ways disagree about the depth
(`reentry_depths_disagree`).
-/

namespace ClosureMachine

namespace Machine

variable {m : Machine} {code : Code}

/-- The machine at instruction `x`, with this accumulator and these arguments. -/
def poised (m : Machine) (a : Value) (rib : List Value) (x : NodeId) : Machine :=
  { m with regs := { m.regs.setRib rib with a, x } }

/-- The machine after one more continuation was invoked. -/
def invokedOnce (m : Machine) : Machine :=
  { m with stats := { m.stats with invoked := m.stats.invoked + 1 } }

/-- The depth of a stored continuation is the number of frames on its stack. -/
theorem Sound.stored_depth (h : m.Sound) {k : Ref Continuation} {cont : Continuation}
    (hk : m.heap.get? k = some cont) :
    m.heap.Depth cont.stack cont.depth ∧
      (CallFrame.chain? m.heap cont.stack).map Array.size = some cont.depth := by
  obtain ⟨-, hc⟩ := (Heap.get?_continuation_iff _ _ _).mp hk
  have hd := h.depths _ _ hc
  exact ⟨hd, hd.chain?_size h.rooted.linked fun _ _ => Nat.zero_le _⟩

/-- Returning into the stack of a stored continuation, whichever way it was made current. -/
theorem Sound.reentry (h : m.Sound) {k : Ref Continuation} {cont : Continuation}
    (hk : m.heap.get? k = some cont) (v : Value) (rib : List Value) (x y : NodeId) :
    (cont.stack ≠ none ∧ ∃ m', ((m.poised v rib x).reinstated cont.stack).popFrame = (.ok (), m') ∧
        ((m.poised (.continuation k) [v] y).thrown cont v).popFrame = (.ok (), m'.invokedOnce)) ∨
      (cont.stack = none ∧
        ((m.poised v rib x).reinstated none).popFrame =
          (.error (.stackUnderflow x), (m.poised v rib x).reinstated none) ∧
        ((m.poised (.continuation k) [v] y).thrown cont v).popFrame =
          (.error (.stackUnderflow y), (m.poised (.continuation k) [v] y).thrown cont v)) := by
  obtain ⟨hd, hcount⟩ := h.stored_depth hk
  have hl := h.rooted.linked
  cases hs : cont.stack with
  | none => exact .inr ⟨rfl, popFrame_of_none rfl, popFrame_of_none hs⟩
  | some top =>
    rw [hs] at hd hcount
    obtain ⟨head, -, -, hg, hc, -⟩ := hd.of_some
    obtain ⟨saved, hlen, hsaved⟩ := hl.exists_values (Nat.zero_le _) hc
    have hnuate := popFrame_of_frame (m := (m.poised v rib x).reinstated (some top)) hl rfl
      (Nat.zero_le _) hg hc hlen hsaved
    have happly := popFrame_of_frame (m := (m.poised (.continuation k) [v] y).thrown cont v) hl hs
      (Nat.zero_le _) hg hc hlen hsaved
    refine .inl ⟨by simp, _, hnuate, happly.trans ?_⟩
    have hdepth : ((m.poised v rib x).reinstated (some top)).depth = cont.depth := by
      change ((CallFrame.chain? m.heap (some top)).map Array.size).getD m.depth = cont.depth
      rw [hcount, Option.getD_some]
    simp only [popped, hdepth]
    rfl

theorem poised_r (m : Machine) (a : Value) (rib : List Value) (x : NodeId) :
    (m.poised a rib x).regs.r = rib :=
  Registers.r_setRib m.regs rib

/-- The instruction that installs the stack of a continuation, and the application of the
continuation. -/
theorem Sound.reenter (h : m.Sound) {k : Ref Continuation} {stack : Option FrameRef}
    (hk : m.continuationStack? (.continuation k) = some stack) (hl : m.exhaustedLimit? = none)
    {code code' : Code} {x y : NodeId} (hx : code.node? x = some (.nuate stack none))
    (hy : code'.node? y = some .apply) (v : Value) (rib : List Value) :
    (stack ≠ none ∧ ∃ m', (m.poised v rib x).step code = (.ok .running, m') ∧
        (m.poised (.continuation k) [v] y).step code' = (.ok .running, m'.invokedOnce)) ∨
      (stack = none ∧ ∃ m₁ m₂, (m.poised v rib x).step code = (.error (.stackUnderflow x), m₁) ∧
        (m.poised (.continuation k) [v] y).step code' = (.error (.stackUnderflow y), m₂) ∧
        m₂.stats = m₁.invokedOnce.stats) := by
  obtain ⟨cont, hget, rfl⟩ := Option.map_eq_some_iff.mp hk
  have hnuate : (m.poised v rib x).step code =
      andContinue ((m.tick.poised v rib x).reinstated cont.stack).popFrame := by
    rw [step_eq_execute (m := m.poised v rib x) hl hx]
    exact congrArg andContinue
      (reinstate_of_linked (m := m.tick.poised v rib x) h.rooted.linked cont.stack)
  have happly : (m.poised (.continuation k) [v] y).step code' =
      andContinue ((m.tick.poised (.continuation k) [v] y).thrown cont v).popFrame := by
    rw [step_eq_execute (m := m.poised (.continuation k) [v] y) hl hy]
    exact congrArg andContinue (applyContinuation_eq
      (m := m.tick.poised (.continuation k) [v] y) hget (m.tick.poised_r _ _ _))
  have htick : m.tick.Sound := h.congr rfl rfl
  rw [hnuate, happly]
  rcases htick.reentry hget v rib x y with ⟨hne, m', hm, hm'⟩ | ⟨hnone, hm, hm'⟩
  · exact .inl ⟨hne, m', by rw [hm]; rfl, by rw [hm']; rfl⟩
  · rw [hm', hnone, hm]
    exact .inr ⟨rfl, _, _, rfl, rfl, rfl⟩

/-! ## With a variable -/

/-- Returning does not depend on where the machine is, nor on how many instructions it has
executed. -/
theorem popFrame_elsewhere (m : Machine) (z : NodeId) :
    (∃ m', m.popFrame = (.ok (), m') ∧ (m.goto z).tick.popFrame = (.ok (), m'.tick)) ∨
      ∃ e e', m.popFrame = (.error e, m) ∧
        (m.goto z).tick.popFrame = (.error e', (m.goto z).tick) := by
  have hs : (m.goto z).tick.regs.s = m.regs.s := rfl
  have hh : (m.goto z).tick.heap = m.heap := rfl
  simp only [popFrame, hs, hh]
  cases m.regs.s with
  | none => exact .inr ⟨_, _, rfl, rfl⟩
  | some top =>
    simp only
    cases CallFrame.load? m.heap top with
    | none => exact .inr ⟨_, _, rfl, rfl⟩
    | some frame =>
      simp only
      cases m.heap.slice? frame.rib with
      | none => exact .inr ⟨_, _, rfl, rfl⟩
      | some rib => exact .inl ⟨_, rfl, rfl⟩

theorem reinstate_elsewhere (m : Machine) (z : NodeId) (stack : Option FrameRef) :
    (∃ m', m.reinstate stack none = (.ok (), m') ∧
        (m.goto z).tick.reinstate stack none = (.ok (), m'.tick)) ∨
      ∃ e e' m', m.reinstate stack none = (.error e, m') ∧
        (m.goto z).tick.reinstate stack none = (.error e', (m'.goto z).tick) := by
  have hh : (m.goto z).tick.heap = m.heap := rfl
  simp only [reinstate_none_eq, hh]
  split
  · exact .inr ⟨_, _, _, rfl, rfl⟩
  · exact (popFrame_elsewhere (m.reinstated stack) z).imp_right
      fun ⟨e, e', hm, hm'⟩ => ⟨e, e', _, hm, hm'⟩

/-- An instruction that reads a variable and installs a stack does what two instructions do. -/
theorem reinstate_after_refer {x y z : NodeId} {stack : Option FrameRef} {var : SymbolId}
    (hl : ∀ l ∈ m.limit, m.stats.instructions + 2 ≤ l)
    (hx : code.node? x = some (.nuate stack (some var)))
    (hy : code.node? y = some (.refer var z)) (hz : code.node? z = some (.nuate stack none)) :
    (∃ e, (m.goto x).step code = (.error e, (m.goto x).tick) ∧
        (m.goto y).step code = (.error e, (m.goto y).tick)) ∨
      ∃ m₁, (m.goto y).step code = (.ok .running, m₁) ∧
        ((∃ m', (m.goto x).step code = (.ok .running, m') ∧
            m₁.step code = (.ok .running, m'.tick)) ∨
          ∃ e e' m', (m.goto x).step code = (.error e, m') ∧
            m₁.step code = (.error e', (m'.goto z).tick)) := by
  have hroom : m.exhaustedLimit? = none :=
    exhaustedLimit?_eq_none_iff.mpr fun l hm => by have := hl l hm; omega
  have hdirect := step_eq_execute (m := m.goto x) hroom hx
  have hrefer := step_eq_execute (m := m.goto y) hroom hy
  have hlookup : ∀ w, (m.goto w).tick.lookup code var = m.lookup code var := fun _ => rfl
  simp only [execute, hlookup] at hdirect hrefer
  cases hv : m.lookup code var with
  | error e =>
    rw [hv] at hdirect hrefer
    exact .inl ⟨e, hdirect, hrefer⟩
  | ok v =>
    rw [hv] at hdirect hrefer
    have hroom' : (((m.goto y).tick.setAccumulator v).goto z).exhaustedLimit? = none :=
      exhaustedLimit?_eq_none_iff.mpr fun l hm => Nat.lt_of_succ_le (hl l hm)
    have hsecond := step_eq_execute (m := ((m.goto y).tick.setAccumulator v).goto z) hroom' hz
    refine .inr ⟨_, hrefer, ?_⟩
    rw [hdirect, hsecond]
    rcases reinstate_elsewhere ((m.goto x).tick.setAccumulator v) z stack with
      ⟨m', hm, hm'⟩ | ⟨e, e', m', hm, hm'⟩
    · exact .inl ⟨m', congrArg andContinue hm, congrArg andContinue hm'⟩
    · exact .inr ⟨e, e', m', congrArg andContinue hm, congrArg andContinue hm'⟩

/-! ## Hosts -/

/-- The control stack is stored only while it can be read: by a careful host, or by one that keeps
to one code between two starts. -/
def Orderly (m : Machine) : Prop :=
  (∃ h : Host, h.Reachable Careful ∧ h.machine = m) ∨ ∃ code, Process.Reachable ⟨m, code⟩

theorem Orderly.sound (h : m.Orderly) : m.Sound := by
  rcases h with ⟨host, hr, rfl⟩ | ⟨code, hr⟩
  · exact hr.sound.machine
  · exact hr.coherent.sound

end Machine

/-- The two ways to re-enter a stack agree. For a live continuation `k`, installing its stack with
`v` in the accumulator and applying `k` to `v` both lead to the same state, where one continuation
more counts as invoked, or both find the stack empty. And in any machine an instruction that reads a
variable before it installs a stack is as good as two: both fail at the variable, or both end in the
same state, or both are refused the stack and differ only in where they stand. -/
theorem reentries_agree {m : Machine} (hm : m.Orderly) :
    (∀ (k : Ref Continuation) (stack : Option FrameRef) (v : Value) (rib : List Value)
      (code code' : Code) (x y : NodeId), m.continuationStack? (.continuation k) = some stack →
      m.exhaustedLimit? = none → code.node? x = some (.nuate stack none) →
      code'.node? y = some .apply →
        (stack ≠ none ∧ ∃ m', (m.poised v rib x).step code = (.ok .running, m') ∧
            (m.poised (.continuation k) [v] y).step code' = (.ok .running, m'.invokedOnce)) ∨
          (stack = none ∧ ∃ m₁ m₂,
            (m.poised v rib x).step code = (.error (.stackUnderflow x), m₁) ∧
            (m.poised (.continuation k) [v] y).step code' = (.error (.stackUnderflow y), m₂) ∧
            m₂.stats = m₁.invokedOnce.stats)) ∧
      ∀ (other : Machine) (stack : Option FrameRef) (var : SymbolId) (code : Code) (x y z : NodeId),
        (∀ l ∈ other.limit, other.stats.instructions + 2 ≤ l) →
        code.node? x = some (.nuate stack (some var)) → code.node? y = some (.refer var z) →
        code.node? z = some (.nuate stack none) →
          (∃ e, (other.goto x).step code = (.error e, (other.goto x).tick) ∧
              (other.goto y).step code = (.error e, (other.goto y).tick)) ∨
            ∃ m₁, (other.goto y).step code = (.ok .running, m₁) ∧
              ((∃ m', (other.goto x).step code = (.ok .running, m') ∧
                  m₁.step code = (.ok .running, m'.tick)) ∨
                ∃ e e' m', (other.goto x).step code = (.error e, m') ∧
                  m₁.step code = (.error e', (m'.goto z).tick)) := by
  refine ⟨?_, ?_⟩
  · intro k stack v rib code code' x y hk hl hx hy
    exact hm.sound.reenter hk hl hx hy v rib
  · intro other stack var code x y z hl hx hy hz
    exact Machine.reinstate_after_refer hl hx hy hz

/-- A frame has been pushed and a continuation over it captured. -/
def heldMachine : Machine where
  heap := ⟨16, #[.frame ⟨0, ⟨0⟩, ⟨0⟩, 0⟩, .continuation ⟨some ⟨⟨0, 1⟩⟩, 1⟩], 2, 1⟩
  regs := { a := .continuation ⟨⟨1, 1⟩⟩, x := 1, s := some ⟨⟨0, 1⟩⟩ }
  depth := 1
  stats := { instructions := 2, framesPushed := 1, maxDepth := 1, captured := 1 }

theorem heldMachine_orderly : heldMachine.Orderly := by
  have hnew : Process.Reachable ⟨{ heap := ⟨16, #[], 0, 1⟩ }, holdCode⟩ :=
    @Process.Reachable.create { arena := .ofBlocks 16 } {} ⟨2⟩ _ holdCode rfl
  have hstart := hnew.move (.start _ _ holdCode 3)
  exact .inr ⟨holdCode, (hstart.move (.step _ _)).move (.step _ _)⟩

/-- Installs a frame, or applies a continuation. -/
def returnCode (f : FrameRef) : Code := { nodes := #[.nuate (some f) none, .apply] }

theorem reentries_agree_held :
    ∃ m', (heldMachine.poised (.int 7) [] 0).step (returnCode ⟨⟨0, 1⟩⟩) = (.ok .running, m') ∧
      (heldMachine.poised (.continuation ⟨⟨1, 1⟩⟩) [.int 7] 1).step (returnCode ⟨⟨0, 1⟩⟩) =
        (.ok .running, m'.invokedOnce) ∧ m'.depth = 0 := by
  obtain ⟨-, m', hm, hm'⟩ | ⟨hnone, -⟩ := (reentries_agree heldMachine_orderly).1 ⟨⟨1, 1⟩⟩
    (some ⟨⟨0, 1⟩⟩) (.int 7) [] (returnCode ⟨⟨0, 1⟩⟩) (returnCode ⟨⟨0, 1⟩⟩) 0 1 rfl rfl rfl rfl
  · refine ⟨m', hm, hm', ?_⟩
    have hstate := congrArg (fun r => r.2.depth) hm
    exact hstate.symm
  · cases hnone

/-! ## A frame that sinks under a captured stack -/

/-- Answer with a continuation that holds three frames. -/
def tripleCode : Code :=
  { nodes := #[.halt, .ret, .conti 1, .frame 0 2, .frame 1 3, .frame 1 4] }

/-- From entry 0 a frame is pushed and captured; from entry 3 another is pushed. -/
def sinkCode : Code := { nodes := #[.frame 2 1, .conti 2, .halt, .frame 2 2] }

/-- The continuation at offset 1 was captured over the frame at offset 0, which lies on top of a
frame of an earlier epoch. The link leads to the frame at offset 2, which was pushed later. -/
def sunkenMachine : Machine where
  heap := ⟨16, #[.frame ⟨2, ⟨0⟩, ⟨3⟩, 0⟩, .continuation ⟨some ⟨⟨0, 2⟩⟩, 1⟩,
    .frame ⟨2, ⟨0⟩, ⟨0⟩, 0⟩], 4, 2⟩
  regs := { x := 2, s := some ⟨⟨2, 2⟩⟩ }
  depth := 1
  stats := { instructions := 1, framesPushed := 1, maxDepth := 1 }

/-- A frame of the first epoch has been installed in the second one, and refused. -/
def refusedHost : Host where
  machine :=
    { heap := ⟨16, #[], 4, 2⟩, regs := { s := some ⟨⟨2, 1⟩⟩ }, stats := { instructions := 1 } }
  gens := ⟨3⟩
  taken := [some ⟨⟨2, 1⟩⟩]

theorem refusedHost_reachable : refusedHost.Reachable fun _ _ => True := by
  have htriple : ∀ x f var, tripleCode.node? x = some (.nuate (some f) var) →
      some f ∈ ([] : List (Option FrameRef)) := by
    rintro (_ | _ | _ | _ | _ | _ | x) f var hx <;> cases hx
  have hstrand : ∀ x f var, (returnCode ⟨⟨2, 1⟩⟩).node? x = some (.nuate (some f) var) →
      some f ∈ [some (⟨⟨2, 1⟩⟩ : FrameRef)] := by
    rintro (_ | _ | x) f var hx <;> cases hx
    exact List.mem_singleton_self _
  have hnew : Host.Reachable (fun _ _ => True) ⟨{ heap := ⟨16, #[], 0, 1⟩ }, ⟨2⟩, [], []⟩ :=
    @Host.Reachable.create _ { arena := .ofBlocks 16 } {} _ _ (by decide) rfl
  have hstart := hnew.move (.start _ 5)
  have hone := hstart.move (.step _ tripleCode htriple trivial)
  have htwo := hone.move (.step _ tripleCode htriple trivial)
  have hthree := htwo.move (.step _ tripleCode htriple trivial)
  have hconti : Host.Reachable (fun _ _ => True)
      ⟨{ heap := ⟨16, #[.frame ⟨1, ⟨0⟩, ⟨0⟩, 0⟩, .frame ⟨1, ⟨0⟩, ⟨1⟩, 0⟩, .frame ⟨0, ⟨0⟩, ⟨2⟩, 0⟩,
            .continuation ⟨some ⟨⟨2, 1⟩⟩, 3⟩], 4, 1⟩
         regs := { a := .continuation ⟨⟨3, 1⟩⟩, x := 1, s := some ⟨⟨2, 1⟩⟩ }
         depth := 3
         stats := { instructions := 4, framesPushed := 3, maxDepth := 3, captured := 1 } },
        ⟨2⟩, [], [⟨⟨2, 1⟩⟩, ⟨⟨1, 1⟩⟩, ⟨⟨0, 1⟩⟩]⟩ :=
    hthree.move (.step _ tripleCode htriple trivial)
  have htaken := hconti.move (@Host.Move.take _ _ (.continuation ⟨⟨3, 1⟩⟩) _ rfl)
  have hreset := htaken.move (@Host.Move.reset _ _ _ ⟨3⟩ rfl)
  exact (hreset.move (.start _ 0)).move (.step _ (returnCode ⟨⟨2, 1⟩⟩) hstrand trivial)

theorem sunkenMachine_reachable :
    Host.Reachable (fun _ _ => True)
      ⟨sunkenMachine, ⟨3⟩, [some ⟨⟨2, 1⟩⟩], [⟨⟨2, 2⟩⟩, ⟨⟨0, 2⟩⟩]⟩ := by
  have hsink : ∀ x f var, sinkCode.node? x = some (.nuate (some f) var) →
      some f ∈ [some (⟨⟨2, 1⟩⟩ : FrameRef)] := by
    rintro (_ | _ | _ | _ | x) f var hx <;> cases hx
  have hpushed := refusedHost_reachable.move (.step _ sinkCode hsink trivial)
  have hcaptured := hpushed.move (.step _ sinkCode hsink trivial)
  exact (hcaptured.move (.start _ 3)).move (.step _ sinkCode hsink trivial)

/-- Both ways lead back into the frame at offset 0, and to different depths. -/
theorem reentry_depths_disagree :
    ∃ (h : Host) (k : Ref Continuation) (f : FrameRef) (m₁ m₂ : Machine),
      h.Reachable (fun _ _ => True) ∧
      h.machine.continuationStack? (.continuation k) = some (some f) ∧
      (h.machine.poised (.int 7) [.int 7] 0).step (returnCode f) = (.ok .running, m₁) ∧
      (h.machine.poised (.continuation k) [.int 7] 1).step (returnCode f) = (.ok .running, m₂) ∧
      m₁.regs = m₂.regs ∧ m₁.depth = 1 ∧ m₂.depth = 0 :=
  ⟨_, ⟨⟨1, 2⟩⟩, ⟨⟨0, 2⟩⟩, _, _, sunkenMachine_reachable, rfl, rfl, rfl, rfl, rfl, rfl⟩

end ClosureMachine
