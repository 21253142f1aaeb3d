import ClosureMachine.Proofs.Machine.Restoration
import ClosureMachine.Proofs.Machine.StaleStacks

/-!
The depth register and the counters of a run. The depth is kept by hand: a push adds one, a return
takes one off, and installing a control stack brings a depth along or counts the frames. All the
same it is the number of frames on the stack in every state a host can bring about, also where a
stack was installed that cannot be used (`depth_counter_is_exact`).

The counters are about one run, from its start on. As long as the run installs no stack, the frames
pushed are those popped and those still there, and `maxDepth` is the largest depth so far. A stack
that is installed may be deeper than any that the run has pushed, and `maxDepth` takes no notice of
it: `installed_depth_not_counted` is a run whose stack is deeper than its `maxDepth`, and
`maxDepth_counts_pushed_stacks` says when that happens.
-/

namespace ClosureMachine

/-! ## The depth register -/

namespace Machine

variable {m m' : Machine} {code : Code}

/-- The depth register is the number of frames on the control stack. -/
def Gauged (m : Machine) : Prop :=
  (CallFrame.chain? m.heap m.regs.s).map Array.size = some m.depth

theorem Settled.gauged (h : m.Settled) : m.Gauged :=
  h.depth.chain?_size h.sound.rooted.linked fun _ _ => Nat.zero_le _

/-- A stack that is installed is counted first, so the depth is right even if it is refused. -/
theorem gauged_reinstate (h : m.Sound) (stack : Option FrameRef) :
    (andContinue (m.reinstate stack none)).2.Gauged := by
  have hl := h.rooted.linked
  rw [snd_andContinue, reinstate_of_linked hl]
  rcases reinstated_cases h stack with hs | ⟨e, heq⟩
  · exact (follows_popFrame hs).settled.gauged
  · obtain ⟨n, hn⟩ := hl.counted stack
    rw [heq]
    change (CallFrame.chain? m.heap stack).map Array.size = some (Option.getD _ m.depth)
    rw [hn, Option.getD_some]

theorem step_gauged (h : m.Coherent code) (hd : m.Gauged) : (m.step code).2.Gauged := by
  unfold step
  split
  · exact hd
  · split
    · exact hd
    · next n hn =>
      have hsound : m.tick.Sound := h.sound.congr rfl rfl
      by_cases hnu : ∃ stack var, n = .nuate stack var
      · obtain ⟨stack, var, rfl⟩ := hnu
        cases var with
        | none => exact gauged_reinstate hsound stack
        | some var =>
          simp only [execute]
          split
          · exact hd
          · next v _ =>
            have hv : (m.tick.setAccumulator v).Sound := hsound.congr rfl rfl
            exact gauged_reinstate hv stack
      · have hne : ∀ stack var, n ≠ .nuate stack var := fun stack var e => hnu ⟨stack, var, e⟩
        have hset : m.tick.Settled := (h.settled hn hne).congr rfl rfl rfl rfl
        exact (follows_execute hset code hne).settled.gauged

theorem proceed_gauged (expired : Nat → Bool) (fuel : Nat) (h : m.Coherent code)
    (hd : m.Gauged) : (proceed code expired fuel m).2.Gauged := by
  induction fuel generalizing m with
  | zero => exact hd
  | succ fuel ih =>
    have hc := (step_coherent h).1
    have hg := step_gauged h hd
    unfold proceed
    split
    · exact hd
    · split
      · next heq =>
        rw [heq] at hg
        exact hg
      · next heq =>
        rw [heq] at hg
        exact hg
      · next heq =>
        rw [heq] at hg hc
        exact ih hc hg

theorem gauged_of_cleared (hs : m.regs.s = none) (hd : m.depth = 0) : m.Gauged := by
  rw [Gauged, hs, hd, CallFrame.chain?_none]
  rfl

end Machine

namespace Process

theorem Move.gauged {p q : Process} (h : Move p q) (hp : p.machine.Coherent p.code)
    (hd : p.machine.Gauged) : q.machine.Gauged := by
  cases h with
  | step m c => exact Machine.step_gauged hp hd
  | start m c c' entry => exact Machine.gauged_of_cleared rfl rfl
  | run m c c' entry expired fuel =>
    exact Machine.proceed_gauged expired fuel (hp.start entry c') (Machine.gauged_of_cleared rfl rfl)
  | grow m hg => exact hd
  | adjust m c globals primitives limit => exact hd

theorem Reachable.gauged {p : Process} (h : Reachable p) : p.machine.Gauged := by
  induction h with
  | create c hm =>
    obtain ⟨heap, -, -, rfl⟩ := Machine.create_eq_ok hm
    exact Machine.gauged_of_cleared rfl rfl
  | move hp hm ih => exact hm.gauged hp.coherent ih
  | reset hp hm _ =>
    obtain ⟨heap, -, -, rfl⟩ := Machine.reset_eq_ok hm
    exact Machine.gauged_of_cleared rfl rfl

end Process

/-! ## One step and the counters -/

/-- The depth and its counters. -/
structure Tally where
  depth : Nat
  pushed : Nat
  popped : Nat
  most : Nat

/-- Nothing happens, a frame is pushed, or a frame is popped. -/
inductive Tally.Next : Tally → Tally → Prop
  | same (t : Tally) : Next t t
  | push (t : Tally) : Next t ⟨t.depth + 1, t.pushed + 1, t.popped, max t.most (t.depth + 1)⟩
  | pop (t : Tally) : 0 < t.depth → Next t ⟨t.depth - 1, t.pushed, t.popped + 1, t.most⟩

namespace Machine

variable {m : Machine} {code : Code}

def tally (m : Machine) : Tally :=
  ⟨m.depth, m.stats.framesPushed, m.stats.framesPopped, m.stats.maxDepth⟩

/-- The next step makes `stack` the control stack: it installs a stack of its own, or it applies a
continuation to one value. -/
inductive Installs (code : Code) (m : Machine) : Option FrameRef → Prop
  | nuate {stack : Option FrameRef} : m.exhaustedLimit? = none →
    code.node? m.regs.x = some (.nuate stack none) → Installs code m stack
  | nuateVar {stack : Option FrameRef} {var : SymbolId} {v : Value} : m.exhaustedLimit? = none →
    code.node? m.regs.x = some (.nuate stack (some var)) → m.lookup code var = .ok v →
      Installs code m stack
  | continuation {ref : Ref Continuation} {k : Continuation} {v : Value} :
    m.exhaustedLimit? = none → code.node? m.regs.x = some .apply →
      m.regs.a = .continuation ref → m.heap.get? ref = some k → m.regs.r = [v] →
        Installs code m k.stack

theorem tally_andGoto (r : Result Unit) (next : NodeId) :
    (andGoto next r).2.tally = r.2.tally := by
  obtain ⟨e | u, m'⟩ := r <;> rfl

theorem tally_makeClosure (formals : FormalsId) (body : NodeId) :
    (m.makeClosure formals body).2.tally = m.tally := by
  unfold makeClosure
  split <;> rfl

theorem tally_capture : m.capture.2.tally = m.tally := by
  unfold capture
  split <;> rfl

theorem tally_assign (var : SymbolId) (v : Value) :
    (m.assign code var v).2.tally = m.tally := by
  unfold assign
  repeat' split
  all_goals rfl

theorem tally_applyClosure (ref : Ref Closure) :
    (m.applyClosure code ref).2.tally = m.tally := by
  unfold applyClosure
  repeat' split
  all_goals rfl

theorem next_pushFrame (returnTo : NodeId) : m.tally.Next (m.pushFrame returnTo).2.tally := by
  unfold pushFrame
  split
  · exact .same _
  · exact .push _

/-- A frame that is popped was counted: there is no return from depth zero. -/
theorem next_popFrame (h : m.Settled) : m.tally.Next m.popFrame.2.tally := by
  rcases popFrame_cases h.sound.rooted h.held with ⟨-, heq⟩ | ⟨top, head, rib, hs, -, -, -, -, heq⟩
  · rw [heq]
    exact .same _
  · rw [heq]
    have hd := h.depth
    rw [hs] at hd
    obtain ⟨-, n, hn, -⟩ := hd.of_some
    have hpos : 0 < m.depth := by omega
    exact .pop m.tally hpos

theorem next_applyPrimitive (h : m.Settled) (id : PrimitiveId) :
    m.tally.Next (m.applyPrimitive id).2.tally := by
  unfold applyPrimitive
  split
  · exact .same _
  · split
    · split
      · exact .same _
      · next v _ =>
        have hv : (m.setAccumulator v).Settled := h.congr rfl rfl rfl rfl
        exact next_popFrame hv
    · exact .same _

/-- A continuation that is not applied to one value is refused. -/
theorem applyContinuation_unapplied {ref : Ref Continuation}
    (h : ∀ k v, m.heap.get? ref = some k → m.regs.r ≠ [v]) :
    (m.applyContinuation ref).2 = m := by
  unfold applyContinuation
  split
  · rfl
  · next k hk =>
    split
    · next v hv => exact absurd hv (h k v hk)
    · rfl

theorem next_apply (h : m.Settled)
    (hno : ∀ ref k v, m.regs.a = .continuation ref → m.heap.get? ref = some k →
      m.regs.r ≠ [v]) : m.tally.Next (m.apply code).2.tally := by
  unfold apply
  split
  · rw [tally_applyClosure]
    exact .same _
  · next ref ha =>
    rw [applyContinuation_unapplied fun k v => hno ref k v ha]
    exact .same _
  · exact next_applyPrimitive h _
  · exact .same _

theorem next_execute (h : m.Settled) {n : Node} (hnu : ∀ stack var, n ≠ .nuate stack var)
    (hno : n = .apply → ∀ ref k v, m.regs.a = .continuation ref → m.heap.get? ref = some k →
      m.regs.r ≠ [v]) : m.tally.Next (m.execute code n).2.tally := by
  cases n with
  | nuate stack var => exact absurd rfl (hnu stack var)
  | halt => exact .same _
  | refer var next =>
    simp only [execute]
    split <;> exact .same _
  | constant v next => exact .same _
  | close formals body next =>
    rw [execute, tally_andGoto, tally_makeClosure]
    exact .same _
  | test onTrue onFalse => exact .same _
  | assign var next =>
    rw [execute, tally_andGoto, tally_assign]
    exact .same _
  | conti next =>
    rw [execute, tally_andGoto, tally_capture]
    exact .same _
  | frame returnTo next =>
    rw [execute, tally_andGoto]
    exact next_pushFrame returnTo
  | argument next => exact .same _
  | apply =>
    rw [execute, snd_andContinue]
    exact next_apply h (hno rfl)
  | ret =>
    rw [execute, snd_andContinue]
    exact next_popFrame h

/-- A step that installs no stack pushes a frame, pops one, or leaves the depth alone. -/
theorem step_next (h : m.Coherent code) (hno : ∀ stack, ¬ m.Installs code stack) :
    m.tally.Next (m.step code).2.tally := by
  cases hl : m.exhaustedLimit? with
  | some limit =>
    simp only [step, hl]
    exact .same _
  | none =>
    cases hn : code.node? m.regs.x with
    | none =>
      simp only [step, hl, hn]
      exact .same _
    | some n =>
      rw [step_eq_execute hl hn]
      by_cases hnu : ∃ stack var, n = .nuate stack var
      · obtain ⟨stack, var, rfl⟩ := hnu
        cases var with
        | none => exact absurd (.nuate hl hn) (hno stack)
        | some var =>
          simp only [execute]
          split
          · exact .same _
          · next v hv => exact absurd (.nuateVar hl hn hv) (hno stack)
      · have hne : ∀ stack var, n ≠ .nuate stack var := fun stack var e => hnu ⟨stack, var, e⟩
        have hset : m.tick.Settled := (h.settled hn hne).congr rfl rfl rfl rfl
        refine next_execute hset hne ?_
        rintro rfl ref k v ha hk hv
        exact hno _ (.continuation hl hn ha hk hv)

theorem most_popFrame : m.popFrame.2.tally.most = m.tally.most := by
  unfold popFrame
  repeat' split
  all_goals rfl

theorem most_reinstate (stack : Option FrameRef) :
    (m.reinstate stack none).2.tally.most = m.tally.most := by
  rcases m.reinstate_none_cases stack with heq | heq
  · rw [heq, most_popFrame]
    rfl
  · rw [heq]
    rfl

/-- Installing a stack leaves the largest depth as it was. -/
theorem Installs.most {stack : Option FrameRef} (h : m.Installs code stack) :
    (m.step code).2.tally.most = m.tally.most := by
  cases h with
  | nuate hl hn =>
    rw [step_eq_execute hl hn, execute, snd_andContinue, most_reinstate]
    rfl
  | @nuateVar _ var v hl hn hv =>
    have hv' : m.tick.lookup code var = .ok v := hv
    rw [step_eq_execute hl hn]
    simp only [execute, hv', snd_andContinue, most_reinstate]
    rfl
  | @continuation ref k v hl hn ha hk hr =>
    have ha' : m.tick.regs.a = .continuation ref := ha
    rw [step_eq_execute hl hn]
    simp only [execute, apply, ha', snd_andContinue]
    rw [applyContinuation_eq (m := m.tick) hk hr, most_popFrame]
    rfl

end Machine

/-! ## The course of a run -/

namespace Process

/-- A run under way: the depths of the control stack since its start, the latest first, and those
among them that a step left by installing a stack. Meanwhile the code may grow, and the host may
change globals, host procedures and the limit. -/
inductive Course : Process → List Nat → List Nat → Prop
  | start {m : Machine} {c : Code} (c' : Code) (entry : NodeId) : Reachable ⟨m, c⟩ →
    Course ⟨m.start entry, c'⟩ [0] []
  | step {m : Machine} {c : Code} {seen installed : List Nat} : Course ⟨m, c⟩ seen installed →
    (∀ stack, ¬ m.Installs c stack) →
      Course ⟨(m.step c).2, c⟩ ((m.step c).2.depth :: seen) installed
  | install {m : Machine} {c : Code} {seen installed : List Nat} {stack : Option FrameRef} :
    Course ⟨m, c⟩ seen installed → m.Installs c stack →
      Course ⟨(m.step c).2, c⟩ ((m.step c).2.depth :: seen) ((m.step c).2.depth :: installed)
  | grow {m : Machine} {c c' : Code} {seen installed : List Nat} : Course ⟨m, c⟩ seen installed →
    c.Grows c' → Course ⟨m, c'⟩ seen installed
  | adjust {m : Machine} {c : Code} {seen installed : List Nat} (globals : Globals)
    (primitives : Array Primitive) (limit : Option Nat) : Course ⟨m, c⟩ seen installed →
      Course ⟨{ m with globals, primitives, limit }, c⟩ seen installed

namespace Course

variable {p : Process} {seen installed : List Nat}

theorem reachable (h : Course p seen installed) : p.Reachable := by
  induction h with
  | start c' entry hr => exact hr.move (.start _ _ c' entry)
  | step _ _ ih => exact ih.move (.step _ _)
  | install _ _ ih => exact ih.move (.step _ _)
  | grow _ hg ih => exact ih.move (.grow _ hg)
  | adjust globals primitives limit _ ih => exact ih.move (.adjust _ _ globals primitives limit)

/-- The depth now is one of those seen. -/
theorem depth_seen (h : Course p seen installed) : p.machine.depth ∈ seen := by
  induction h with
  | start c' entry _ => exact List.mem_singleton_self _
  | step _ _ _ => exact List.mem_cons_self
  | install _ _ _ => exact List.mem_cons_self
  | grow _ _ ih => exact ih
  | adjust _ _ _ _ ih => exact ih

theorem installed_seen (h : Course p seen installed) : ∀ i ∈ installed, i ∈ seen := by
  induction h with
  | start c' entry _ => exact nofun
  | step _ _ ih => exact fun i hi => List.mem_cons_of_mem _ (ih i hi)
  | install _ _ ih =>
    intro i hi
    rcases List.mem_cons.mp hi with rfl | hi
    · exact List.mem_cons_self
    · exact List.mem_cons_of_mem _ (ih i hi)
  | grow _ _ ih => exact ih
  | adjust _ _ _ _ ih => exact ih

/-- As long as no stack is installed, every frame pushed has been popped or is still there. -/
theorem balance (h : Course p seen installed) (hi : installed = []) :
    p.machine.tally.pushed = p.machine.tally.popped + p.machine.tally.depth := by
  induction h with
  | start c' entry _ => rfl
  | @step m c seen installed hc hno ih =>
    have hb : m.tally.pushed = m.tally.popped + m.tally.depth := ih hi
    have hnext : m.tally.Next (m.step c).2.tally := Machine.step_next hc.reachable.coherent hno
    change (m.step c).2.tally.pushed = (m.step c).2.tally.popped + (m.step c).2.tally.depth
    generalize (m.step c).2.tally = t at hnext
    cases hnext with
    | same => exact hb
    | push => exact congrArg (· + 1) hb
    | pop hpos =>
      simp only
      omega
  | install _ _ _ => cases hi
  | grow _ _ ih => exact ih hi
  | adjust _ _ _ _ ih => exact ih hi

/-- The counter holds a depth that was seen, and no depth is larger but for installed stacks. -/
theorem most (h : Course p seen installed) :
    p.machine.tally.most ∈ seen ∧
      ∀ d ∈ seen, d ≤ p.machine.tally.most ∨ ∃ i ∈ installed, d ≤ i := by
  induction h with
  | start c' entry _ => exact ⟨List.mem_singleton_self _, by simp⟩
  | grow _ _ ih => exact ih
  | adjust _ _ _ _ ih => exact ih
  | @step m c seen installed hc hno ih =>
    obtain ⟨hmem, hle⟩ : m.tally.most ∈ seen ∧
      ∀ d ∈ seen, d ≤ m.tally.most ∨ ∃ i ∈ installed, d ≤ i := ih
    have hdepth : m.tally.depth ≤ m.tally.most ∨ ∃ i ∈ installed, m.tally.depth ≤ i :=
      hle _ hc.depth_seen
    have hnext : m.tally.Next (m.step c).2.tally := Machine.step_next hc.reachable.coherent hno
    change (m.step c).2.tally.most ∈ (m.step c).2.tally.depth :: seen ∧
      ∀ d ∈ (m.step c).2.tally.depth :: seen,
        d ≤ (m.step c).2.tally.most ∨ ∃ i ∈ installed, d ≤ i
    generalize (m.step c).2.tally = t at hnext
    cases hnext with
    | same => exact ⟨List.mem_cons_of_mem _ hmem, List.forall_mem_cons.mpr ⟨hdepth, hle⟩⟩
    | push =>
      refine ⟨?_, List.forall_mem_cons.mpr ⟨.inl (Nat.le_max_right _ _), fun d hd => ?_⟩⟩
      · rcases Nat.le_total m.tally.most (m.tally.depth + 1) with hm | hm
        · rw [Nat.max_eq_right hm]
          exact List.mem_cons_self
        · rw [Nat.max_eq_left hm]
          exact List.mem_cons_of_mem _ hmem
      · exact (hle d hd).imp_left fun h => Nat.le_trans h (Nat.le_max_left _ _)
    | pop hpos =>
      refine ⟨List.mem_cons_of_mem _ hmem, List.forall_mem_cons.mpr ⟨?_, hle⟩⟩
      rcases hdepth with hd | ⟨i, hi, hd⟩
      · exact .inl (Nat.le_trans (Nat.sub_le _ _) hd)
      · exact .inr ⟨i, hi, Nat.le_trans (Nat.sub_le _ _) hd⟩
  | @install m c seen installed stack hc hin ih =>
    obtain ⟨hmem, hle⟩ := ih
    change (m.step c).2.tally.most ∈ _ ∧ ∀ d ∈ _, d ≤ (m.step c).2.tally.most ∨ _
    rw [hin.most]
    refine ⟨List.mem_cons_of_mem _ hmem, List.forall_mem_cons.mpr
      ⟨.inr ⟨_, List.mem_cons_self, Nat.le_refl _⟩, fun d hd => ?_⟩⟩
    exact (hle d hd).imp_right fun ⟨i, hi, h⟩ => ⟨i, List.mem_cons_of_mem _ hi, h⟩

end Course

end Process

/-- An instruction that neither installs a stack nor applies anything. -/
theorem Machine.not_installs {m : Machine} {code : Code} {n : Node}
    (hn : code.node? m.regs.x = some n) (hnu : ∀ stack var, n ≠ .nuate stack var)
    (happly : n ≠ .apply) : ∀ stack, ¬ m.Installs code stack := by
  rintro _ (⟨-, h⟩ | ⟨-, h, -⟩ | ⟨-, h, -⟩)
  · exact hnu _ _ (Option.some.inj (hn.symm.trans h))
  · exact hnu _ _ (Option.some.inj (hn.symm.trans h))
  · exact happly (Option.some.inj (hn.symm.trans h))

/-! ## The depth tells the truth -/

/-- In every state that a host can bring about, the depth is the length of the backtrace, and the
walk along the stack ends after as many frames. In a run that has installed no stack, the frames
pushed are those popped and those still there, and `maxDepth` is the largest depth seen. -/
theorem depth_counter_is_exact :
    (∀ p : Process, p.Reachable →
      p.machine.backtrace?.map List.length = some p.machine.depth ∧
        ∃ rest, p.machine.heap.Walk p.machine.regs.s rest ∧ rest.length = p.machine.depth) ∧
    (∀ (p : Process) (seen : List Nat), p.Course seen [] →
      p.machine.stats.framesPushed = p.machine.stats.framesPopped + p.machine.depth ∧
        p.machine.stats.maxDepth ∈ seen ∧ ∀ d ∈ seen, d ≤ p.machine.stats.maxDepth) := by
  constructor
  · intro p hp
    have hgauged : (CallFrame.chain? _ _).map Array.size = some p.machine.depth := hp.gauged
    obtain ⟨frames, hframes, hsize⟩ := Option.map_eq_some_iff.mp hgauged
    obtain ⟨rest, hw, -⟩ := CallFrame.chain?_eq_some_iff.mp hframes
    have hlen := (CallFrame.chain?_size_of_walk hw).symm.trans hgauged
    refine ⟨?_, rest, hw, Option.some.inj hlen⟩
    rw [Machine.backtrace?, hframes, Option.map_some, Option.map_some, List.length_map,
      Array.length_toList, hsize]
  · intro p seen hp
    obtain ⟨hmem, hle⟩ := hp.most
    refine ⟨hp.balance rfl, hmem, fun d hd => ?_⟩
    exact (hle d hd).resolve_right fun ⟨_, hi, _⟩ => List.not_mem_nil hi

/-- Push two frames and return into them. -/
def nestCode : Code := { nodes := #[.halt, .ret, .frame 1 1, .frame 0 2] }

/-- One of two frames has been popped. -/
def nestProcess : Process :=
  ⟨{ heap := ⟨16, #[.frame ⟨0, ⟨0⟩, ⟨0⟩, 0⟩, .frame ⟨1, ⟨0⟩, ⟨1⟩, 0⟩], 2, 1⟩
     regs := { x := 1, s := some ⟨⟨0, 1⟩⟩ }
     depth := 1
     stats := { instructions := 3, framesPushed := 2, framesPopped := 1, maxDepth := 2 } },
    nestCode⟩

theorem nestProcess_course : nestProcess.Course [1, 2, 1, 0] [] := by
  have hnew : Process.Reachable ⟨{ heap := ⟨16, #[], 0, 1⟩ }, nestCode⟩ :=
    @Process.Reachable.create { arena := .ofBlocks 16 } {} _ _ nestCode rfl
  have hstart := Process.Course.start nestCode 3 hnew
  have hfirst := hstart.step (Machine.not_installs rfl nofun nofun)
  have hsecond := hfirst.step (Machine.not_installs rfl nofun nofun)
  exact hsecond.step (Machine.not_installs rfl nofun nofun)

/-- The stack of `strandedHost`: it was installed after a reset and refused. -/
theorem strandedHost_process : Process.Reachable ⟨strandedHost.machine, strandCode⟩ := by
  have hnew : Process.Reachable ⟨{ heap := ⟨16, #[], 0, 1⟩ }, holdCode⟩ :=
    @Process.Reachable.create { arena := .ofBlocks 16 } {} _ _ holdCode rfl
  have hheld := ((hnew.move (.start _ _ holdCode 3)).move (.step _ _)).move (.step _ _)
  have hreset := @Process.Reachable.reset _ _ _ ⟨2⟩ ⟨3⟩ hheld rfl
  exact (hreset.move (.start _ _ strandCode 0)).move (.step _ _)

theorem depth_counter_is_exact_nested :
    (strandedHost.machine.regs.s = some ⟨⟨0, 1⟩⟩ ∧
      strandedHost.machine.backtrace?.map List.length = some strandedHost.machine.depth) ∧
    nestProcess.machine.backtrace? = some [0] ∧
      nestProcess.machine.backtrace?.map List.length = some nestProcess.machine.depth ∧
      nestProcess.machine.stats.framesPushed =
        nestProcess.machine.stats.framesPopped + nestProcess.machine.depth ∧
      ∀ d ∈ [1, 2, 1, 0], d ≤ nestProcess.machine.stats.maxDepth := by
  obtain ⟨hdepth, hrun⟩ := depth_counter_is_exact
  obtain ⟨hbalance, -, hmost⟩ := hrun nestProcess _ nestProcess_course
  exact ⟨⟨rfl, (hdepth _ strandedHost_process).1⟩, rfl,
    (hdepth _ nestProcess_course.reachable).1, hbalance, hmost⟩

/-! ## The largest depth does not -/

/-- Store a continuation that holds two frames in global 0 (from 5), apply it to 7 (from 9), or do
both in one run (from 10). -/
def revisitCode : Code :=
  { nodes := #[.halt, .ret, .assign 0 1, .conti 2, .frame 1 3, .frame 0 4, .apply, .refer 0 6,
      .argument 7, .constant (.int 7) 8, .frame 9 4] }

/-- A machine in which global 0 is bound. -/
def revisitMachine : Machine := { heap := ⟨64, #[], 0, 1⟩, globals := ⟨[(0, .nil)]⟩ }

theorem revisitMachine_reachable : Process.Reachable ⟨revisitMachine, revisitCode⟩ := by
  have hnew : Process.Reachable ⟨{ heap := ⟨64, #[], 0, 1⟩ }, revisitCode⟩ :=
    @Process.Reachable.create { arena := .ofBlocks 64 } {} _ _ revisitCode rfl
  exact hnew.move (.adjust _ _ ⟨[(0, .nil)]⟩ #[] none)

/-- The continuation of an earlier run brings along a stack that is deeper than all that this run
has pushed. -/
theorem installed_depth_not_counted :
    ∃ p seen installed, Process.Course p seen installed ∧
      p.machine.stats.maxDepth < p.machine.depth := by
  have hstored := revisitMachine_reachable.move (.run _ _ revisitCode 5 (fun _ => false) 10)
  have hstart := Process.Course.start revisitCode 9 hstored
  have hconstant := hstart.step (Machine.not_installs rfl nofun nofun)
  have hargument := hconstant.step (Machine.not_installs rfl nofun nofun)
  have hrefer := hargument.step (Machine.not_installs rfl nofun nofun)
  have happly := hrefer.install (.continuation rfl rfl rfl rfl rfl)
  exact ⟨_, _, _, happly, by decide⟩

/-- `maxDepth` is a depth that the control stack has had since the start. It is the largest, and so
at least the depth now, exactly as long as no step has left a deeper stack by installing it. -/
theorem maxDepth_counts_pushed_stacks {p : Process} {seen installed : List Nat}
    (h : p.Course seen installed) :
    p.machine.depth ∈ seen ∧ p.machine.stats.maxDepth ∈ seen ∧
      ((∀ d ∈ seen, d ≤ p.machine.stats.maxDepth) ↔
        ∀ i ∈ installed, i ≤ p.machine.stats.maxDepth) := by
  obtain ⟨hmem, hle⟩ := h.most
  refine ⟨h.depth_seen, hmem, fun hall i hi => hall i (h.installed_seen i hi), ?_⟩
  intro hinstalled d hd
  rcases hle d hd with hd' | ⟨i, hi, hd'⟩
  · exact hd'
  · exact Nat.le_trans hd' (hinstalled i hi)

/-- A continuation is applied in the run that captured it. -/
theorem maxDepth_counts_pushed_stacks_revisit :
    ∃ p seen, Process.Course p seen [1] ∧ p.machine.stats.maxDepth = 2 ∧
      p.machine.depth = 1 ∧ ∀ d ∈ seen, d ≤ p.machine.stats.maxDepth := by
  have hstart := Process.Course.start revisitCode 10 revisitMachine_reachable
  have houter := hstart.step (Machine.not_installs rfl nofun nofun)
  have hinner := houter.step (Machine.not_installs rfl nofun nofun)
  have hconti := hinner.step (Machine.not_installs rfl nofun nofun)
  have hassign := hconti.step (Machine.not_installs rfl nofun nofun)
  have hret := hassign.step (Machine.not_installs rfl nofun nofun)
  have hret' := hret.step (Machine.not_installs rfl nofun nofun)
  have hconstant := hret'.step (Machine.not_installs rfl nofun nofun)
  have hargument := hconstant.step (Machine.not_installs rfl nofun nofun)
  have hrefer := hargument.step (Machine.not_installs rfl nofun nofun)
  have happly := hrefer.install (.continuation rfl rfl rfl rfl rfl)
  refine ⟨_, _, happly, rfl, rfl, (maxDepth_counts_pushed_stacks happly).2.2.mpr ?_⟩
  rintro i (_ | ⟨_, ⟨⟩⟩)
  decide

end ClosureMachine
