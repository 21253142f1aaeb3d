import ClosureMachine.Proofs.Machine.History

/-!
Frames are restored exactly. What a frame saved when it was pushed is what the registers hold
whenever it is popped, in any later state of the epoch, however often, and in whichever of the four
ways (`Machine.Returns`): by a return, after a host procedure, by applying a continuation, or by an
instruction that installs a stack. The argument is in three parts: the frame saves its registers
(`saves_pushed`), a saved frame stays saved (`Saves.mono`), and popping a saved frame restores
them (`Saves.popFrame`).
-/

namespace ClosureMachine

/-- The frame `f` resumes at `returnTo` with the environment, arguments and stack of `regs`, and
there are `depth` frames below it. -/
structure Heap.Saves (heap : Heap) (f : FrameRef) (returnTo : NodeId) (regs : Registers)
    (depth : Nat) : Prop where
  generation : f.addr.generation = heap.generation
  stored : ∃ h, heap.cell? f.addr.offset = some (.frame h) ∧ h.returnTo = returnTo ∧
    h.env.resolve heap.generation = regs.e ∧ h.link.resolve heap.generation = regs.s ∧
    h.length = regs.r.length
  rib : heap.HoldsValues (f.addr.offset + 1) regs.r
  below : heap.Depth regs.s depth

namespace Heap.Saves

variable {heap heap' : Heap} {f : FrameRef} {returnTo : NodeId} {regs : Registers} {depth : Nat}

theorem mono (h : heap.Saves f returnTo regs depth) (hk : heap.Keeps 0 heap') :
    heap'.Saves f returnTo regs depth := by
  obtain ⟨head, hc, hx, he, hs, hl⟩ := h.stored
  constructor
  case generation => exact h.generation.trans hk.generation.symm
  case stored =>
    refine ⟨head, hk.record _ _ hc rfl, hx, ?_, ?_, hl⟩
    · rw [hk.generation, he]
    · rw [hk.generation, hs]
  case rib => exact hk.holdsValues_rib (Nat.zero_le _) hc hl.symm h.rib
  case below => exact h.below.mono hk

theorem depth_eq (h : heap.Saves f returnTo regs depth) {n : Nat}
    (hd : heap.Depth (some f) n) : n = depth + 1 := by
  obtain ⟨head, hc, -, -, hs, -⟩ := h.stored
  have hbelow := h.below
  rw [← hs] at hbelow
  exact hd.unique (.frame h.generation hc hbelow)

/-- Popping a saved frame restores what it saved. -/
theorem popFrame {m : Machine} (h : m.heap.Saves f returnTo regs depth)
    (hl : m.heap.Linked 0) (hs : m.regs.s = some f) (hd : m.depth = depth + 1) :
    ∃ m', m.popFrame = (.ok (), m') ∧
      m'.regs = { regs with a := m.regs.a, x := returnTo } ∧ m'.depth = depth := by
  obtain ⟨head, hc, hx, he, hlink, hlen⟩ := h.stored
  refine ⟨m.popped head regs.r,
    Machine.popFrame_of_frame hl hs (Nat.zero_le _) h.generation hc hlen.symm h.rib, ?_, ?_⟩
  · simp [Machine.popped, Registers.setRib, hx, he, hlink, Registers.r]
  · simp [Machine.popped, hd]

/-- Every stored frame saves some registers. -/
theorem exists_of_held (hl : heap.Linked 0) (hf : heap.HoldsFrame 0 heap.used f) :
    ∃ returnTo regs depth, heap.Saves f returnTo regs depth := by
  obtain ⟨head, hc⟩ := hf.stored
  obtain ⟨rib, hlen, hrib⟩ := hl.exists_values (Nat.zero_le _) hc
  obtain ⟨n, hd⟩ := hl.exists_depth _ f rfl hf
  obtain ⟨head', depth, -, -, hc', hbelow⟩ := hd.of_some
  rw [hc] at hc'
  cases hc'
  let regs : Registers :=
    { e := head.env.resolve heap.generation, collected := rib.reverse,
      s := head.link.resolve heap.generation }
  have hr : regs.r = rib := List.reverse_reverse rib
  refine ⟨head.returnTo, regs, depth, hf.generation, ⟨head, hc, rfl, rfl, rfl, ?_⟩, ?_, hbelow⟩
  · rw [hr]
    exact hlen.symm
  · rw [hr]
    exact hrib

end Heap.Saves

namespace Machine

/-- The next step of `m` returns `v` into the frame `f`. -/
inductive Returns (code : Code) (m : Machine) (f : FrameRef) : Value → Prop
  | ret : code.node? m.regs.x = some .ret → m.regs.s = some f → Returns code m f m.regs.a
  | primitive {id : PrimitiveId} {p : Primitive} {v : Value} :
    code.node? m.regs.x = some .apply → m.regs.a = .primitive id → m.primitive? id = some p →
      p.arity.accepts m.regs.r.length = true → p.run m.regs.r = .ok v → m.regs.s = some f →
      Returns code m f v
  | continuation {k : Ref Continuation} {cont : Continuation} {v : Value} :
    code.node? m.regs.x = some .apply → m.regs.a = .continuation k → m.heap.get? k = some cont →
      cont.stack = some f → m.regs.r = [v] → Returns code m f v
  | nuate : code.node? m.regs.x = some (.nuate (some f) none) → Returns code m f m.regs.a
  | nuateVar {var : SymbolId} {v : Value} :
    code.node? m.regs.x = some (.nuate (some f) (some var)) → m.lookup code var = .ok v →
      Returns code m f v

variable {m : Machine} {code : Code}

/-- A pushed frame saves the registers it was pushed with. -/
theorem saves_pushed (h : m.Settled) (returnTo : NodeId)
    (hfit : ¬ m.heap.remaining < m.regs.r.length + 1) :
    (m.pushed returnTo).heap.Saves ⟨⟨m.heap.used, m.heap.generation⟩⟩ returnTo m.regs
      m.depth := by
  have hr := h.sound.rooted
  have hk := (advanced_pushed hr h.held returnTo hfit).keeps
  constructor
  case generation => rfl
  case stored =>
    exact ⟨_, Heap.cell?_store_head m.heap _ m.regs.r, rfl, hr.linked.resolve_env hr.env,
      hr.linked.resolve_frame h.held, rfl⟩
  case rib => exact Heap.holdsValues_store m.heap _ m.regs.r
  case below => exact h.depth.mono hk

theorem Coherent.settled (h : m.Coherent code) {n : Node} (hn : code.node? m.regs.x = some n)
    (hnu : ∀ stack var, n ≠ .nuate stack var) : m.Settled := by
  refine ⟨h.sound, h.stack.resolve_right ?_⟩
  rintro ⟨var, hx⟩
  rw [hn] at hx
  cases hx
  exact hnu _ _ rfl

/-- Whichever way control returns, it pops the frame from a stack whose depth is known. -/
theorem Returns.pops {f : FrameRef} {v : Value} (hr : m.Returns code f v) (h : m.Coherent code)
    (hl : m.exhaustedLimit? = none) (hf : m.heap.HoldsFrame 0 m.heap.used f) :
    ∃ m' : Machine, m.step code = andContinue m'.popFrame ∧ m'.heap = m.heap ∧
      m'.regs.s = some f ∧ m'.regs.a = v ∧ m.heap.Depth (some f) m'.depth := by
  have hread : ∀ r ∈ some f, r.addr.generation = m.heap.generation ∧
      ∃ head, m.heap.cell? r.addr.offset = some (.frame head) := by
    rintro _ ⟨⟩
    exact ⟨hf.generation, hf.stored⟩
  cases hr with
  | ret hn htop =>
    have hd := (h.settled hn (by simp)).depth
    rw [htop] at hd
    exact ⟨m.tick, step_eq_execute hl hn, rfl, htop, rfl, hd⟩
  | @primitive id p _ hn ha hp hacc hrun htop =>
    have hd := (h.settled hn (by simp)).depth
    rw [htop] at hd
    refine ⟨m.tick.setAccumulator v, ?_, rfl, htop, rfl, hd⟩
    have ha' : m.tick.regs.a = .primitive id := ha
    have hp' : m.tick.primitive? id = some p := hp
    have hacc' : p.arity.accepts m.tick.regs.r.length = true := hacc
    have hrun' : p.run m.tick.regs.r = .ok v := hrun
    rw [step_eq_execute hl hn]
    simp only [execute, apply, ha', applyPrimitive, hp', hacc', ↓reduceIte, hrun']
  | @continuation k cont _ hn ha hk hstack hv =>
    have hd := h.sound.depths _ _ ((Heap.get?_continuation_iff _ _ _).mp hk).2
    rw [hstack] at hd
    refine ⟨m.tick.thrown cont v, ?_, rfl, hstack, rfl, hd⟩
    have ha' : m.tick.regs.a = .continuation k := ha
    rw [step_eq_execute hl hn]
    simp only [execute, apply, ha']
    rw [applyContinuation_eq (m := m.tick) hk hv]
  | nuate hn =>
    have htick : m.tick.Sound := h.sound.congr rfl rfl
    have hset := settled_reinstated htick hread
    refine ⟨m.tick.reinstated (some f), ?_, rfl, rfl, rfl, hset.depth⟩
    rw [step_eq_execute hl hn, execute, reinstate_of_linked htick.rooted.linked]
  | @nuateVar var _ hn hv =>
    have hset' : (m.tick.setAccumulator v).Sound := h.sound.congr rfl rfl
    have hset := settled_reinstated hset' hread
    refine ⟨(m.tick.setAccumulator v).reinstated (some f), ?_, rfl, rfl, rfl, hset.depth⟩
    have hv' : m.tick.lookup code var = .ok v := hv
    rw [step_eq_execute hl hn]
    simp only [execute, hv', reinstate_of_linked hset'.rooted.linked]

/-- Whichever way a saved frame is popped, it restores what it saved. -/
theorem Returns.step {f : FrameRef} {v : Value} (hr : m.Returns code f v)
    (h : m.Coherent code) (hl : m.exhaustedLimit? = none) {returnTo : NodeId}
    {regs : Registers} {depth : Nat} (hs : m.heap.Saves f returnTo regs depth) :
    ∃ m', m.step code = (.ok .running, m') ∧
      m'.regs = { regs with a := v, x := returnTo } ∧ m'.depth = depth := by
  obtain ⟨head, hc, -⟩ := hs.stored
  obtain ⟨m₁, hstep, hheap, htop, rfl, hd⟩ := hr.pops h hl
    ⟨hs.generation, Nat.zero_le _, Heap.cell?_lt hc, head, hc⟩
  have hdepth := hs.depth_eq hd
  rw [← hheap] at hs
  obtain ⟨m', hpop, hregs, hdep⟩ := hs.popFrame (hheap ▸ h.sound.rooted.linked) htop hdepth
  exact ⟨m', by rw [hstep, hpop]; rfl, hregs, hdep⟩

/-- Where a frame instruction succeeds there was room for the frame. -/
theorem step_frame_eq_ok {m' : Machine} (h : m.Coherent code) {returnTo next : NodeId}
    (hn : code.node? m.regs.x = some (.frame returnTo next))
    (hm : m.step code = (.ok .running, m')) :
    ¬ m.heap.remaining < m.regs.r.length + 1 ∧ m' = (m.tick.pushed returnTo).goto next := by
  have hl : m.exhaustedLimit? = none := by
    cases hl : m.exhaustedLimit? with
    | none => rfl
    | some limit => simp [step, hl] at hm
  have hw : m.tick.heap.capacity < wordLimit := h.sound.rooted.linked.capacity_lt
  rw [step_eq_execute hl hn] at hm
  simp only [execute, pushFrame_eq hw] at hm
  split at hm
  · simp [andGoto] at hm
  · next hfit =>
    simp only [andGoto, Prod.mk.injEq, true_and] at hm
    exact ⟨hfit, hm.symm⟩

theorem exists_top_of_popFrame {m' : Machine} (h : m.popFrame = (.ok (), m')) :
    ∃ f, m.regs.s = some f := by
  cases hs : m.regs.s with
  | none =>
    rw [popFrame_of_none hs] at h
    cases h
  | some f => exact ⟨f, rfl⟩

private theorem eq_ok_of_andContinue {r : Result Unit} {m' : Machine}
    (h : andContinue r = (.ok .running, m')) : r = (.ok (), m') := by
  obtain ⟨e | u, m''⟩ := r
  · simp [andContinue] at h
  · simpa [andContinue] using h

private theorem eq_ok_of_andGoto {r : Result Unit} {m' : Machine} {next : NodeId}
    (h : andGoto next r = (.ok .running, m')) : ∃ m'', r = (.ok (), m'') ∧ m' = m''.goto next := by
  obtain ⟨e | u, m''⟩ := r
  · simp [andGoto] at h
  · exact ⟨m'', rfl, by simpa [andGoto] using h.symm⟩

private theorem returns_of_apply {m' : Machine} (hn : code.node? m.regs.x = some .apply)
    (h : m.tick.apply code = (.ok (), m'))
    (hp : m'.stats.framesPopped ≠ m.stats.framesPopped) : ∃ f v, m.Returns code f v := by
  unfold apply at h
  split at h
  · unfold applyClosure at h
    repeat' split at h
    all_goals cases h
    exact absurd rfl hp
  · next k ha =>
    unfold applyContinuation at h
    split at h
    · cases h
    · next cont hk =>
      split at h
      · next v hv =>
        obtain ⟨f, hf⟩ := exists_top_of_popFrame h
        exact ⟨f, v, .continuation hn ha hk hf hv⟩
      · cases h
  · next id ha =>
    unfold applyPrimitive at h
    split at h
    · cases h
    · next p hprim =>
      split at h
      · next hacc =>
        split at h
        · cases h
        · next v hrun =>
          obtain ⟨f, hf⟩ := exists_top_of_popFrame h
          exact ⟨f, v, .primitive hn ha hprim hacc hrun hf⟩
      · cases h
  · cases h

/-- A step that counts a popped frame is a return into one. -/
theorem returns_of_framesPopped {m' : Machine} (h : m.step code = (.ok .running, m'))
    (hp : m'.stats.framesPopped ≠ m.stats.framesPopped) : ∃ f v, m.Returns code f v := by
  unfold step at h
  split at h
  · cases h
  · split at h
    · cases h
    · next n hn =>
      cases n with
      | ret =>
        obtain ⟨f, hf⟩ := exists_top_of_popFrame (eq_ok_of_andContinue h)
        exact ⟨f, _, .ret hn hf⟩
      | apply => exact returns_of_apply hn (eq_ok_of_andContinue h) hp
      | nuate stack var =>
        cases var with
        | none =>
          have hpop := popFrame_of_reinstate (eq_ok_of_andContinue h)
          obtain ⟨f, hf⟩ := exists_top_of_popFrame hpop
          obtain rfl : stack = some f := hf
          exact ⟨f, _, .nuate hn⟩
        | some var =>
          simp only [execute] at h
          split at h
          · cases h
          · next v hv =>
            have hpop := popFrame_of_reinstate (eq_ok_of_andContinue h)
            obtain ⟨f, hf⟩ := exists_top_of_popFrame hpop
            obtain rfl : stack = some f := hf
            exact ⟨f, v, .nuateVar hn hv⟩
      | halt => cases h
      | constant v next => cases h; exact absurd rfl hp
      | test onTrue onFalse => cases h; exact absurd rfl hp
      | argument next => cases h; exact absurd rfl hp
      | refer var next =>
        simp only [execute] at h
        split at h
        · cases h
        · cases h; exact absurd rfl hp
      | close formals body next =>
        obtain ⟨m'', hr, rfl⟩ := eq_ok_of_andGoto h
        unfold makeClosure at hr
        split at hr
        · cases hr
        · cases hr; exact absurd rfl hp
      | conti next =>
        obtain ⟨m'', hr, rfl⟩ := eq_ok_of_andGoto h
        unfold capture at hr
        split at hr
        · cases hr
        · cases hr; exact absurd rfl hp
      | frame returnTo next =>
        obtain ⟨m'', hr, rfl⟩ := eq_ok_of_andGoto h
        unfold pushFrame at hr
        split at hr
        · cases hr
        · cases hr; exact absurd rfl hp
      | assign var next =>
        obtain ⟨m'', hr, rfl⟩ := eq_ok_of_andGoto h
        unfold Machine.assign at hr
        repeat' split at hr
        all_goals cases hr
        all_goals exact absurd rfl hp

/-- The next step applies the continuation `k` to the value `v`. -/
structure Throws (code : Code) (m : Machine) (k : Ref Continuation) (v : Value) : Prop where
  node : code.node? m.regs.x = some .apply
  callee : m.regs.a = .continuation k
  argument : m.regs.r = [v]

end Machine

/-- A frame pushed in a reachable state restores, whenever it is popped later in the epoch, the
registers and the depth it was pushed with; no step pops a frame in any other way; and a
continuation with a frame, applied to one value in any two later states, leads to the same registers
and the same depth. -/
theorem frames_restored_exactly {p : Process} (hp : p.Reachable) :
    (∀ returnTo next m, p.code.node? p.machine.regs.x = some (.frame returnTo next) →
      p.machine.step p.code = (.ok .running, m) →
        ∃ f, m.regs.s = some f ∧
          ∀ q v, Process.Later ⟨m, p.code⟩ q → q.machine.Returns q.code f v →
            q.machine.exhaustedLimit? = none →
              ∃ m', q.machine.step q.code = (.ok .running, m') ∧
                m'.regs = { p.machine.regs with a := v, x := returnTo } ∧
                m'.depth = p.machine.depth) ∧
    (∀ m, p.machine.step p.code = (.ok .running, m) →
      m.stats.framesPopped ≠ p.machine.stats.framesPopped →
        ∃ f v, p.machine.Returns p.code f v) ∧
    (∀ k cont v, p.machine.heap.get? k = some cont → cont.stack ≠ none →
      ∀ q q', Process.Later p q → Process.Later p q' →
        q.machine.Throws q.code k v → q.machine.exhaustedLimit? = none →
        q'.machine.Throws q'.code k v → q'.machine.exhaustedLimit? = none →
          ∃ m m', q.machine.step q.code = (.ok .running, m) ∧
            q'.machine.step q'.code = (.ok .running, m') ∧
            m.regs = m'.regs ∧ m.depth = m'.depth) := by
  have hcoh := hp.coherent
  refine ⟨?_, fun m hm hpop => Machine.returns_of_framesPopped hm hpop, ?_⟩
  · intro returnTo next m hn hm
    have hset : p.machine.tick.Settled :=
      (hcoh.settled hn (by simp)).congr rfl rfl rfl rfl
    obtain ⟨hfit, rfl⟩ := Machine.step_frame_eq_ok hcoh hn hm
    refine ⟨⟨⟨p.machine.heap.used, p.machine.heap.generation⟩⟩, rfl, ?_⟩
    intro q v hq hr hlimit
    have hstep := Machine.step_coherent hcoh
    rw [hm] at hstep
    obtain ⟨hqc, hqk⟩ := hq.coherent hstep.1
    exact hr.step hqc hlimit ((Machine.saves_pushed hset returnTo hfit).mono hqk)
  · intro k cont v hk hne q q' hq hq' ht hlimit ht' hlimit'
    obtain ⟨f, hf⟩ := Option.ne_none_iff_exists'.mp hne
    obtain ⟨hqc, hqk⟩ := hq.coherent hcoh
    obtain ⟨hqc', hqk'⟩ := hq'.coherent hcoh
    obtain ⟨hg, hc⟩ := (Heap.get?_continuation_iff _ _ _).mp hk
    have hlinked := hcoh.sound.rooted.linked
    have hheld := (hlinked.link _ _ (Nat.zero_le _) hc f hf).mono (Heap.Keeps.refl _ _)
      (Nat.le_of_lt (Heap.cell?_lt hc))
    obtain ⟨returnTo, regs, depth, hs⟩ := Heap.Saves.exists_of_held hlinked hheld
    have hreturns : ∀ {r : Process}, p.machine.heap.Keeps 0 r.machine.heap →
        r.machine.Throws r.code k v → r.machine.Returns r.code f v := by
      intro r hr ht
      refine .continuation ht.node ht.callee ?_ hf ht.argument
      exact (Heap.get?_continuation_iff _ _ _).mpr
        ⟨hg.trans hr.generation.symm, hr.record _ _ hc rfl⟩
    obtain ⟨m, hm, hregs, hd⟩ := (hreturns hqk ht).step hqc hlimit (hs.mono hqk)
    obtain ⟨m', hm', hregs', hd'⟩ := (hreturns hqk' ht').step hqc' hlimit' (hs.mono hqk')
    exact ⟨m, m', hm, hm', hregs.trans hregs'.symm, hd.trans hd'.symm⟩

/-- Collect an argument, push a frame, and return into it. -/
def bracketCode : Code :=
  { nodes := #[.halt, .ret, .frame 0 1, .argument 2, .constant (.int 7) 3] }

/-- A machine with sixteen blocks, about to push a frame that saves one argument. -/
def bracketProcess : Process :=
  ⟨{ heap := ⟨16, #[], 0, 1⟩, regs := { a := .int 7, x := 2, collected := [.int 7] },
     stats := { instructions := 2 } }, bracketCode⟩

theorem bracketProcess_reachable : bracketProcess.Reachable := by
  have hnew : Process.Reachable ⟨{ heap := ⟨16, #[], 0, 1⟩ }, bracketCode⟩ :=
    @Process.Reachable.create { arena := .ofBlocks 16 } {} _ _ bracketCode rfl
  have hstart := hnew.move (.start _ _ bracketCode 4)
  exact (hstart.move (.step _ _)).move (.step _ _)

theorem frames_restored_exactly_bracket :
    ∃ m m', bracketProcess.machine.step bracketCode = (.ok .running, m) ∧ m.regs.r = [] ∧
      m.step bracketCode = (.ok .running, m') ∧
      m'.regs = { bracketProcess.machine.regs with a := .int 7, x := 0 } ∧ m'.depth = 0 := by
  obtain ⟨hrestored, -, -⟩ := frames_restored_exactly bracketProcess_reachable
  obtain ⟨f, hf, hpop⟩ := hrestored 0 1 _ rfl rfl
  obtain ⟨m', hm, hregs, hd⟩ := hpop ⟨_, bracketCode⟩ _ .refl (.ret rfl hf) rfl
  exact ⟨_, m', rfl, rfl, hm, hregs, hd⟩

end ClosureMachine
