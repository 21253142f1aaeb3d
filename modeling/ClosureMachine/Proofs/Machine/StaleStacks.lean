import ClosureMachine.Proofs.Arena.Ledger
import ClosureMachine.Proofs.Machine.History
import ClosureMachine.Proofs.Machine.Shift

/-!
Control stacks of earlier epochs. A host may keep the stack of a continuation and install it again
later, also in other code and after a reset. A stack of an earlier epoch is refused, for references
carry their generation; but the machine is left with it, and a frame that is pushed on top of it
stores a link without a generation. Read back, that link leads into the current epoch, to whatever
lies there: `stranded_stack_resurrected` is a host whose control stack leads around in a circle.

A host is careful when it executes no instruction that stores the control stack while that stack
cannot be read. Under a careful host every frame on the control stack was pushed in the current
epoch, and the walk along them ends (`careful_stack_is_current`).
-/

namespace ClosureMachine

/-- A machine, the counter of generations, the control stacks that were asked for so far, and the
frames pushed since the last reset. -/
structure Host where
  machine : Machine
  gens : Generations
  taken : List (Option FrameRef) := []
  pushed : List FrameRef := []

/-- The frame that the next step pushes, if it does. -/
def Machine.nextPushed (m : Machine) (code : Code) : List FrameRef :=
  match code.node? m.regs.x, m.step code with
  | some (.frame _ _), (.ok _, m') => m'.regs.s.toList
  | _, _ => []

/-- No instruction that stores the control stack is next while that stack cannot be read. -/
def Machine.Careful (m : Machine) (code : Code) : Prop :=
  ∀ r ∈ m.regs.s, CallFrame.load? m.heap r = none →
    ∀ n, code.node? m.regs.x = some n →
      (∀ returnTo next, n ≠ .frame returnTo next) ∧ ∀ next, n ≠ .conti next

namespace Host

/-- One act of a host. A step may use any code that installs stacks only that were asked for. -/
inductive Move (allowed : Machine → Code → Prop) : Host → Host → Prop
  | start (h : Host) (entry : NodeId) :
    Move allowed h { h with machine := h.machine.start entry }
  | step (h : Host) (code : Code) :
    (∀ x f var, code.node? x = some (.nuate (some f) var) → some f ∈ h.taken) →
      allowed h.machine code →
      Move allowed h
        { h with
          machine := (h.machine.step code).2
          pushed := h.machine.nextPushed code ++ h.pushed }
  | reset (h : Host) {m : Machine} {gens : Generations} :
    h.machine.reset h.gens = .ok (m, gens) →
      Move allowed h { h with machine := m, gens, pushed := [] }
  | take (h : Host) {v : Value} {stack : Option FrameRef} :
    h.machine.continuationStack? v = some stack →
      Move allowed h { h with taken := stack :: h.taken }
  | adjust (h : Host) (globals : Globals) (primitives : Array Primitive) (limit : Option Nat) :
    Move allowed h { h with machine := { h.machine with globals, primitives, limit } }
  /-- Another arena takes a generation. -/
  | elsewhere (h : Host) {g : Nat} {gens : Generations} :
    h.gens.issue? = some (g, gens) → Move allowed h { h with gens }

inductive Reachable (allowed : Machine → Code → Prop) : Host → Prop
  | create {settings : Settings} {gens gens' : Generations} {m : Machine} :
    gens.next < wordLimit → Machine.create settings gens = .ok (m, gens') →
      Reachable allowed { machine := m, gens := gens' }
  | move {h h' : Host} : Reachable allowed h → Move allowed h h' → Reachable allowed h'

end Host

/-! ## A circle -/

/-- Answer with a continuation that holds one frame. -/
def holdCode : Code := { nodes := #[.halt, .ret, .conti 1, .frame 0 2] }

/-- Install the frame again. -/
def strandCode : Code := { nodes := #[.nuate (some ⟨⟨0, 1⟩⟩) none] }

/-- Push a frame and return into it. -/
def pushCode : Code := { nodes := #[.frame 1 1, .ret] }

/-- A frame of the first epoch has been installed in the second one, and refused. -/
def strandedHost : Host where
  machine :=
    { heap := ⟨16, #[], 2, 2⟩, regs := { s := some ⟨⟨0, 1⟩⟩ }, stats := { instructions := 1 } }
  gens := ⟨3⟩
  taken := [some ⟨⟨0, 1⟩⟩]

theorem strandedHost_reachable {allowed : Machine → Code → Prop}
    (hall : ∀ m code, m.Careful code → allowed m code) : strandedHost.Reachable allowed := by
  have hhold : ∀ x f var, holdCode.node? x = some (.nuate (some f) var) →
      some f ∈ ([] : List (Option FrameRef)) := by
    rintro (_ | _ | _ | _ | x) f var hx <;> cases hx
  have hstrand : ∀ x f var, strandCode.node? x = some (.nuate (some f) var) →
      some f ∈ [some (⟨⟨0, 1⟩⟩ : FrameRef)] := by
    rintro (_ | x) f var hx <;> cases hx
    exact List.mem_singleton_self _
  have hnew : Host.Reachable allowed ⟨{ heap := ⟨16, #[], 0, 1⟩ }, ⟨2⟩, [], []⟩ :=
    @Host.Reachable.create _ { arena := .ofBlocks 16 } {} _ _ (by decide) rfl
  have hstart := hnew.move (.start _ 3)
  have hframe := hstart.move (.step _ holdCode hhold (hall _ _ (by rintro _ ⟨⟩)))
  have hconti := hframe.move (.step _ holdCode hhold
    (hall _ _ (by rintro _ ⟨⟩ hload; cases hload)))
  have htaken := hconti.move (@Host.Move.take _ _ (.continuation ⟨⟨1, 1⟩⟩) _ rfl)
  have hreset := htaken.move (@Host.Move.reset _ _ _ ⟨3⟩ rfl)
  exact (hreset.move (.start _ 0)).move (.step _ strandCode hstrand (hall _ _ (by rintro _ ⟨⟩)))

theorem pushCode_installs (taken : List (Option FrameRef)) :
    ∀ x f var, pushCode.node? x = some (.nuate (some f) var) → some f ∈ taken := by
  rintro (_ | _ | x) f var hx <;> cases hx

/-- The first frame of the second epoch has been pushed on top of the first frame of the first. -/
def circleMachine : Machine where
  heap := ⟨16, #[.frame ⟨1, ⟨0⟩, ⟨1⟩, 0⟩], 2, 2⟩
  regs := { x := 1, s := some ⟨⟨0, 2⟩⟩ }
  depth := 1
  stats := { instructions := 2, framesPushed := 1, maxDepth := 1 }

theorem circleMachine_reachable :
    Host.Reachable (fun _ _ => True) ⟨circleMachine, ⟨3⟩, [some ⟨⟨0, 1⟩⟩], [⟨⟨0, 2⟩⟩]⟩ :=
  (strandedHost_reachable fun _ _ _ => trivial).move
    (.step _ pushCode (pushCode_installs _) trivial)

/-- The walk from a frame that links to itself never ends. -/
theorem stranded_stack_resurrected :
    ∃ h : Host, h.Reachable (fun _ _ => True) ∧
      ¬ ∃ rest, h.machine.heap.Walk h.machine.regs.s rest := by
  refine ⟨_, circleMachine_reachable, ?_⟩
  have hload : ∃ f, CallFrame.load? circleMachine.heap ⟨⟨0, 2⟩⟩ = some f ∧
      f.link = some ⟨⟨0, 2⟩⟩ := ⟨_, rfl, rfl⟩
  obtain ⟨f, hload, hlink⟩ := hload
  rintro ⟨rest, hw⟩
  induction rest with
  | nil =>
    cases hw with
    | unread hn => cases hn
  | cons r rest ih =>
    cases hw with
    | frame hf hrest =>
      have hsame := hload.symm.trans hf
      cases hsame
      rw [hlink] at hrest
      exact ih hrest

/-! ## Machines with a stack that cannot be read -/

namespace Machine

variable {m : Machine} {code : Code}

/-- The machine without its control stack. -/
def unstacked (m : Machine) : Machine :=
  { m with regs := { m.regs with s := none }, depth := 0 }

theorem Sound.settled_unstacked (h : m.Sound) : m.unstacked.Settled :=
  ⟨h.congr rfl rfl, .empty⟩

theorem makeClosure_unstacked (formals : FormalsId) (body : NodeId) :
    (m.unstacked.makeClosure formals body).2 = (m.makeClosure formals body).2.unstacked := by
  have hroom : m.unstacked.heap.remaining = m.heap.remaining := rfl
  rw [makeClosure_eq, makeClosure_eq, hroom]
  split <;> rfl

theorem assign_unstacked (var : SymbolId) (v : Value) :
    (m.unstacked.assign code var v).2 = (m.assign code var v).2.unstacked := by
  have hfind : Binding.find m.unstacked.heap code m.unstacked.regs.e var =
    Binding.find m.heap code m.regs.e var := rfl
  cases hb : Binding.find m.heap code m.regs.e var with
  | slot values index =>
    have hset : m.unstacked.heap.setAt values index v = m.heap.setAt values index v := rfl
    simp only [assign, hfind, hb, hset]
    split <;> rfl
  | free =>
    have hset : m.unstacked.globals.set? var v = m.globals.set? var v := rfl
    simp only [assign, hfind, hb, hset]
    split <;> rfl
  | broken => simp only [assign, hfind, hb]
  | endless => simp only [assign, hfind, hb]

theorem applyClosure_unstacked (ref : Ref Closure) :
    (m.unstacked.applyClosure code ref).2 = (m.applyClosure code ref).2.unstacked := by
  have hget : m.unstacked.heap.get? ref = m.heap.get? ref := rfl
  have hrib : m.unstacked.regs.r = m.regs.r := rfl
  simp only [applyClosure, hget, hrib]
  split
  · rfl
  · split
    · rfl
    · split
      · rfl
      · have hbind (f : FormalsId) (e : Option EnvRef) :
            EnvFrame.bind m.unstacked.heap f m.regs.r e = EnvFrame.bind m.heap f m.regs.r e := rfl
        simp only [hbind]
        split <;> rfl

theorem makeClosure_stack (formals : FormalsId) (body : NodeId) :
    (m.makeClosure formals body).2.regs.s = m.regs.s := by
  rw [makeClosure_eq]
  split <;> rfl

theorem applyClosure_stack (ref : Ref Closure) :
    (m.applyClosure code ref).2.regs.s = m.regs.s := by
  unfold applyClosure
  repeat' split
  all_goals rfl

theorem assign_stack (var : SymbolId) (v : Value) :
    (m.assign code var v).2.regs.s = m.regs.s := by
  unfold assign
  repeat' split
  all_goals rfl

/-- The control stack is of another epoch. -/
def Stale (m : Machine) : Prop := ∃ f, m.regs.s = some f ∧ f.addr.generation ≠ m.heap.generation

theorem Stale.popFrame {m₁ : Machine} (h : m.Stale) (hh : m₁.heap = m.heap)
    (hs : m₁.regs.s = m.regs.s) : m₁.popFrame = (.error (.malformed .staleFrame), m₁) := by
  obtain ⟨f, hf, hg⟩ := h
  exact popFrame_of_stale (hs.trans hf) (Heap.load_frame_eq_none fun hr => hg (hh ▸ hr.1))

/-- What an instruction leaves of a stale machine: it is sound, and still stale or settled. -/
structure Survives (m m' : Machine) : Prop where
  sound : m'.Sound
  keeps : m.heap.Keeps 0 m'.heap
  stack : m'.regs.s = m.regs.s ∨ m'.Settled

theorem Survives.of_same {m' : Machine} (h : m.Sound) (hh : m'.heap = m.heap)
    (he : m'.regs.e = m.regs.e) (hs : m'.regs.s = m.regs.s) : m.Survives m' :=
  ⟨h.congr hh he, hh ▸ Heap.Keeps.refl _ _, .inl hs⟩

/-- A machine that survives without its stack survives with it. -/
theorem Survives.of_unstacked {m' : Machine} (h : m'.unstacked.Follows m.unstacked.heap)
    (hs : m'.regs.s = m.regs.s) : m.Survives m' :=
  ⟨h.settled.sound.congr rfl rfl, h.keeps, .inl hs⟩

theorem survives_andGoto {r : Result Unit} (h : m.Survives r.2) (next : NodeId) :
    m.Survives (andGoto next r).2 := by
  obtain ⟨e | u, m'⟩ := r
  · exact h
  · exact ⟨h.sound.congr rfl rfl, h.keeps, h.stack.imp id fun hs => hs.congr rfl rfl rfl rfl⟩

theorem survives_apply (h : m.Sound) (hstale : m.Stale) : m.Survives (m.apply code).2 := by
  unfold apply
  split
  · next ref _ =>
    have hf := follows_applyClosure h.settled_unstacked code ref
    rw [applyClosure_unstacked] at hf
    exact .of_unstacked hf (applyClosure_stack ref)
  · next ref _ =>
    cases hk : m.heap.get? ref with
    | none =>
      simp only [applyContinuation, hk]
      exact .of_same h rfl rfl rfl
    | some k =>
      by_cases hr : m.regs.r.length = 1
      · obtain ⟨v, hv⟩ := List.length_eq_one_iff.mp hr
        rw [applyContinuation_eq hk hv]
        have hf := follows_popFrame (settled_thrown h.settled_unstacked hk v)
        exact ⟨hf.settled.sound, hf.keeps, .inr hf.settled⟩
      · rw [applyContinuation_of_refused hk hr]
        exact .of_same h rfl rfl rfl
  · next id _ =>
    unfold applyPrimitive
    split
    · exact .of_same h rfl rfl rfl
    · split
      · split
        · exact .of_same h rfl rfl rfl
        · next v _ =>
          have hpop : (m.setAccumulator v).popFrame = (.error _, m.setAccumulator v) :=
            hstale.popFrame rfl rfl
          rw [hpop]
          exact .of_same h rfl rfl rfl
      · exact .of_same h rfl rfl rfl
  · exact .of_same h rfl rfl rfl

theorem survives_execute (code : Code) (h : m.Sound) (hstale : m.Stale) {n : Node}
    (hframe : ∀ returnTo next, n ≠ .frame returnTo next) (hconti : ∀ next, n ≠ .conti next)
    (hnuate : ∀ stack var, n ≠ .nuate stack var) : m.Survives (m.execute code n).2 := by
  cases n with
  | frame returnTo next => exact absurd rfl (hframe returnTo next)
  | conti next => exact absurd rfl (hconti next)
  | nuate stack var => exact absurd rfl (hnuate stack var)
  | halt => exact .of_same h rfl rfl rfl
  | refer var next =>
    simp only [execute]
    split
    · exact .of_same h rfl rfl rfl
    · exact .of_same h rfl rfl rfl
  | constant v next => exact .of_same h rfl rfl rfl
  | close formals body next =>
    have hf := follows_makeClosure h.settled_unstacked formals body
    rw [makeClosure_unstacked] at hf
    exact survives_andGoto (.of_unstacked hf (makeClosure_stack formals body)) next
  | test onTrue onFalse => exact .of_same h rfl rfl rfl
  | assign var next =>
    have hf := follows_assign h.settled_unstacked code var m.regs.a
    rw [assign_unstacked] at hf
    exact survives_andGoto (.of_unstacked hf (assign_stack var _)) next
  | argument next => exact .of_same h rfl rfl rfl
  | apply =>
    simp only [execute, snd_andContinue]
    exact survives_apply h hstale
  | ret =>
    simp only [execute, snd_andContinue]
    rw [hstale.popFrame rfl rfl]
    exact .of_same h rfl rfl rfl

end Machine

/-! ## Careful hosts -/

/-- The number was given out. -/
def Generations.Past (gens : Generations) (g : Nat) : Prop := gens.next = 0 ∨ g < gens.next

theorem Generations.past_zero (gens : Generations) : gens.Past 0 := Nat.eq_zero_or_pos _

theorem Generations.Past.issue {gens gens' : Generations} {g new : Nat} (h : gens.Past g)
    (hw : gens.next < wordLimit) (hi : gens.issue? = some (new, gens')) :
    gens'.next < wordLimit ∧ gens'.Past new ∧ gens'.Past g ∧ g ≠ new := by
  unfold issue? at hi
  split at hi
  · cases hi
  · next hne =>
    cases hi
    have hlt : g < gens.next := h.resolve_left hne
    have hpast : ∀ k, k ≤ gens.next → Past ⟨(gens.next + 1) % wordLimit⟩ k := by
      intro k hk
      rcases Nat.lt_or_ge (gens.next + 1) wordLimit with hn | hn
      · refine .inr ?_
        change k < (gens.next + 1) % wordLimit
        rw [Nat.mod_eq_of_lt hn]
        omega
      · exact .inl (by rw [show gens.next + 1 = wordLimit by omega, Nat.mod_self])
    exact ⟨Nat.mod_lt _ wordLimit_pos, hpast _ (Nat.le_refl _), hpast g (Nat.le_of_lt hlt),
      Nat.ne_of_lt hlt⟩

namespace Host

/-- What holds under a careful host. The stack is the machine's own or of an earlier epoch, and so
is every stack that was asked for. -/
structure Sound (h : Host) : Prop where
  word : h.gens.next < wordLimit
  current : h.gens.Past h.machine.heap.generation
  machine : h.machine.Sound
  stack : h.machine.Settled ∨ h.machine.Stale
  taken : ∀ stack ∈ h.taken, ∀ r ∈ stack, h.gens.Past r.addr.generation ∧
    (r.addr.generation = h.machine.heap.generation →
      ∃ head, h.machine.heap.cell? r.addr.offset = some (.frame head))
  pushed : ∀ o head, h.machine.heap.cell? o = some (.frame head) →
    ⟨⟨o, h.machine.heap.generation⟩⟩ ∈ h.pushed

end Host

namespace Machine

/-- A reset begins an epoch of its own with nothing stored. -/
theorem reset_begins {m m' : Machine} {gens gens' : Generations}
    (h : m.reset gens = .ok (m', gens')) :
    gens.issue? = some (m'.heap.generation, gens') ∧ m'.heap.capacity = m.heap.capacity ∧
      m'.heap.region = #[] ∧ m'.regs = {} ∧ m'.depth = 0 := by
  unfold reset at h
  split at h
  · cases h
  · next heap _ hb =>
    cases h
    obtain ⟨g, hg, rfl⟩ := Arena.reset_eq_ok hb
    exact ⟨hg, rfl, rfl, rfl, rfl⟩

theorem create_begins {settings : Settings} {m : Machine} {gens gens' : Generations}
    (h : create settings gens = .ok (m, gens')) :
    gens.issue? = some (m.heap.generation, gens') ∧ m.heap.capacity < wordLimit ∧
      m.heap.region = #[] ∧ m.regs = {} ∧ m.depth = 0 := by
  unfold create at h
  split at h
  · cases h
  · split at h
    · cases h
    · next heap _ hb =>
      cases h
      obtain ⟨hw, g, hg, rfl⟩ := Arena.create_eq_ok hb
      exact ⟨hg, hw, rfl, rfl, rfl⟩

variable {m : Machine} {code : Code}

theorem step_frame_cases (h : m.Rooted 0) {returnTo next : NodeId}
    (hn : code.node? m.regs.x = some (.frame returnTo next)) :
    (m.step code).2.heap = m.heap ∨
      m.step code = (.ok .running, (m.tick.pushed returnTo).goto next) := by
  cases hl : m.exhaustedLimit? with
  | some limit => exact .inl (by simp only [step, hl])
  | none =>
    rw [step_eq_execute hl hn]
    simp only [execute, pushFrame_eq (m := m.tick) h.linked.capacity_lt]
    by_cases hfit : m.tick.heap.remaining < m.tick.regs.r.length + 1
    · exact .inl (by rw [if_pos hfit]; rfl)
    · exact .inr (by rw [if_neg hfit]; rfl)

/-- A frame of the heap after a step was there before or has just been pushed. -/
theorem frame_after_step (h : m.Rooted 0) {o : Nat} {head : FrameHeader}
    (hc : (m.step code).2.heap.cell? o = some (.frame head)) :
    m.heap.cell? o = some (.frame head) ∨
      ⟨⟨o, m.heap.generation⟩⟩ ∈ m.nextPushed code := by
  by_cases hframe : ∃ returnTo next, code.node? m.regs.x = some (.frame returnTo next)
  · obtain ⟨returnTo, next, hn⟩ := hframe
    rcases step_frame_cases h hn with hsame | hstep
    · exact .inl (hsame ▸ hc)
    · rw [hstep] at hc
      rcases Heap.cell?_extend_cases hc with hold | ⟨i, rfl, hi⟩
      · exact .inl hold
      · cases i with
        | zero =>
          refine .inr ?_
          simp only [nextPushed, hn, hstep]
          exact List.mem_singleton_self _
        | succ i => simp at hi
  · cases step_shift h code with
    | stay heap => exact .inl (heap ▸ hc)
    | pass n node x cells =>
      rcases cells o _ hc with hold | hadds
      · exact .inl hold
      · cases hadds
    | collect next node heap => exact .inl (heap ▸ hc)
    | push returnTo next node => exact absurd ⟨returnTo, next, node⟩ hframe
    | pop top head rib heap => exact .inl (heap ▸ hc)
    | enter ref c names node a stored formals arity room heap =>
      rw [heap] at hc
      rcases Heap.cell?_extend_cases hc with hold | ⟨i, rfl, hi⟩
      · exact .inl hold
      · cases i <;> simp at hi
    | strand stack source heap => exact .inl (heap ▸ hc)

/-- Installing a stack settles the machine or leaves it stale. -/
theorem installs_or_stale (h : m.Sound) {stack : Option FrameRef}
    (hstack : ∀ r ∈ stack, r.addr.generation = m.heap.generation →
      ∃ head, m.heap.cell? r.addr.offset = some (.frame head)) :
    (m.reinstate stack none).2.Sound ∧ m.heap.Keeps 0 (m.reinstate stack none).2.heap ∧
      ((m.reinstate stack none).2.Settled ∨ (m.reinstate stack none).2.Stale ∧
        ∃ e, (m.reinstate stack none).1 = .error e) := by
  rw [reinstate_of_linked h.rooted.linked]
  by_cases hlive : ∀ r ∈ stack, r.addr.generation = m.heap.generation
  · have hset := settled_reinstated h fun r hr => ⟨hlive r hr, hstack r hr (hlive r hr)⟩
    have hf := follows_popFrame hset
    exact ⟨hf.settled.sound, hf.keeps, .inl hf.settled⟩
  · have hstale : (m.reinstated stack).Stale := by
      cases stack with
      | none => exact absurd (by simp) hlive
      | some r => exact ⟨r, rfl, fun hg => hlive (by rintro _ ⟨⟩; exact hg)⟩
    rw [hstale.popFrame rfl rfl]
    exact ⟨h.congr rfl rfl, Heap.Keeps.refl _ _, .inr ⟨hstale, _, rfl⟩⟩

end Machine

namespace Machine

variable {m : Machine} {code : Code}

theorem error_andContinue {r : Result Unit} (h : ∃ e, r.1 = .error e) :
    ∃ e, (andContinue r).1 = .error e := by
  obtain ⟨e | u, m₁⟩ := r
  · exact ⟨e, rfl⟩
  · obtain ⟨e, he⟩ := h
    cases he

/-- A careful step leaves a sound machine that is settled or stale. A settled machine gets stale by
a step that fails. -/
theorem step_careful (h : m.Sound) (hstack : m.Settled ∨ m.Stale) (hcare : m.Careful code)
    (htaken : ∀ f var, code.node? m.regs.x = some (.nuate (some f) var) →
      f.addr.generation = m.heap.generation →
        ∃ head, m.heap.cell? f.addr.offset = some (.frame head)) :
    (m.step code).2.Sound ∧ m.heap.Keeps 0 (m.step code).2.heap ∧
      ((m.step code).2.Settled ∨ (m.step code).2.Stale ∧
        (m.Stale ∨ ∃ e, (m.step code).1 = .error e)) := by
  unfold step
  split
  · exact ⟨h, Heap.Keeps.refl _ _, hstack.imp id fun hs => ⟨hs, .inl hs⟩⟩
  · split
    · exact ⟨h, Heap.Keeps.refl _ _, hstack.imp id fun hs => ⟨hs, .inl hs⟩⟩
    · next n hn =>
      by_cases hnu : ∃ stack var, n = .nuate stack var
      · obtain ⟨stack, var, rfl⟩ := hnu
        have hinstall : ∀ m₁ : Machine, m₁.heap = m.heap → m₁.Sound →
            (andContinue (m₁.reinstate stack none)).2.Sound ∧
              m.heap.Keeps 0 (andContinue (m₁.reinstate stack none)).2.heap ∧
              ((andContinue (m₁.reinstate stack none)).2.Settled ∨
                (andContinue (m₁.reinstate stack none)).2.Stale ∧
                  (m.Stale ∨ ∃ e, (andContinue (m₁.reinstate stack none)).1 = .error e)) := by
          intro m₁ hh hs
          have hread : ∀ r ∈ stack, r.addr.generation = m₁.heap.generation →
              ∃ head, m₁.heap.cell? r.addr.offset = some (.frame head) := by
            intro r hr hg
            rw [Option.mem_def.mp hr] at hn
            rw [hh] at hg ⊢
            exact htaken r var hn hg
          obtain ⟨hsound, hkeeps, hafter⟩ := installs_or_stale hs hread
          rw [snd_andContinue, ← hh]
          exact ⟨hsound, hkeeps, hafter.imp id fun hst => ⟨hst.1, .inr (error_andContinue hst.2)⟩⟩
        have htick : m.tick.Sound := h.congr rfl rfl
        cases var with
        | none => exact hinstall m.tick rfl htick
        | some var =>
          simp only [execute]
          split
          · refine ⟨htick, Heap.Keeps.refl _ _, ?_⟩
            exact hstack.imp (fun hs => hs.congr rfl rfl rfl rfl) fun hs => ⟨hs, .inl hs⟩
          · next v _ => exact hinstall (m.tick.setAccumulator v) rfl (h.congr rfl rfl)
      · have hnuate : ∀ stack var, n ≠ .nuate stack var := fun stack var e => hnu ⟨stack, var, e⟩
        rcases hstack with hs | hs
        · have hset : m.tick.Settled := hs.congr rfl rfl rfl rfl
          have hf := follows_execute hset code hnuate
          exact ⟨hf.settled.sound, hf.keeps, .inl hf.settled⟩
        · obtain ⟨f, hf, hg⟩ := id hs
          obtain ⟨hframe, hconti⟩ := hcare f hf (Heap.load_frame_eq_none fun hr => hg hr.1) n hn
          have htick : m.tick.Sound := h.congr rfl rfl
          have hstale : m.tick.Stale := hs
          obtain ⟨hsound, hkeeps, hafter⟩ :=
            survives_execute code htick hstale hframe hconti hnuate
          refine ⟨hsound, hkeeps, hafter.symm.imp id fun hsame => ⟨?_, .inl hs⟩⟩
          exact ⟨f, hsame.trans hf, fun hgen => hg (hgen.trans hkeeps.generation)⟩

end Machine

namespace Host

theorem Sound.step {h : Host} (hs : h.Sound) {code : Code}
    (hcode : ∀ x f var, code.node? x = some (.nuate (some f) var) → some f ∈ h.taken)
    (hcare : h.machine.Careful code) :
    Sound { h with
      machine := (h.machine.step code).2
      pushed := h.machine.nextPushed code ++ h.pushed } := by
  obtain ⟨hsound, hkeeps, hstack⟩ := Machine.step_careful hs.machine hs.stack hcare
    fun f var hn => (hs.taken _ (hcode _ f var hn) f rfl).2
  refine ⟨hs.word, hkeeps.generation.symm ▸ hs.current, hsound, hstack.imp id (·.1), ?_, ?_⟩
  · intro stack hmem r hr
    obtain ⟨hpast, hread⟩ := hs.taken stack hmem r hr
    refine ⟨hpast, fun hg => ?_⟩
    obtain ⟨head, hc⟩ := hread (hg.trans hkeeps.generation)
    exact ⟨head, hkeeps.record _ _ hc rfl⟩
  · intro o head hc
    change _ ∈ h.machine.nextPushed code ++ h.pushed
    rw [hkeeps.generation]
    rcases Machine.frame_after_step hs.machine.rooted hc with hold | hnew
    · exact List.mem_append_right _ (hs.pushed o head hold)
    · exact List.mem_append_left _ hnew

theorem Sound.start {h : Host} (hs : h.Sound) (entry : NodeId) :
    Sound { h with machine := h.machine.start entry } := by
  have hsettled := hs.machine.start entry
  exact ⟨hs.word, hs.current, hsettled.sound, .inl hsettled, hs.taken, hs.pushed⟩

/-- Nothing is stored in the epoch that has just begun. -/
theorem sound_of_unused {m : Machine} {gens : Generations} {taken : List (Option FrameRef)}
    (hw : m.heap.capacity < wordLimit) (hregion : m.heap.region = #[]) (hregs : m.regs = {})
    (hdepth : m.depth = 0) (hword : gens.next < wordLimit)
    (hcurrent : gens.Past m.heap.generation)
    (htaken : ∀ stack ∈ taken, ∀ r ∈ stack, gens.Past r.addr.generation ∧
      r.addr.generation ≠ m.heap.generation) : Sound ⟨m, gens, taken, []⟩ := by
  have hused : m.heap.used = 0 := by simp [Arena.used, hregion]
  have hcoherent := Machine.coherent_of_empty hw hused hregs hdepth {}
  refine ⟨hword, hcurrent, hcoherent.sound, .inl ⟨hcoherent.sound, ?_⟩, ?_, ?_⟩
  · rw [hregs, hdepth]
    exact .empty
  · intro stack hmem r hr
    obtain ⟨hpast, hne⟩ := htaken stack hmem r hr
    exact ⟨hpast, fun hg => absurd hg hne⟩
  · intro o head hc
    have hlt : o < m.heap.used := Heap.cell?_lt hc
    omega

theorem Sound.take {h : Host} (hs : h.Sound) {v : Value} {stack : Option FrameRef}
    (ht : h.machine.continuationStack? v = some stack) :
    Sound { h with taken := stack :: h.taken } := by
  refine { hs with taken := ?_ }
  intro stack' hmem r hr
  rcases List.mem_cons.mp hmem with rfl | hmem
  · cases v with
    | continuation k =>
      obtain ⟨cont, hk, rfl⟩ := Option.map_eq_some_iff.mp ht
      obtain ⟨-, hc⟩ := (Heap.get?_continuation_iff _ _ _).mp hk
      have hd := hs.machine.depths _ _ hc
      rw [Option.mem_def.mp hr] at hd
      obtain ⟨head, -, -, hg, hframe, -⟩ := hd.of_some
      exact ⟨hg.symm ▸ hs.current, fun _ => ⟨head, hframe⟩⟩
    | _ => cases ht
  · exact hs.taken stack' hmem r hr

theorem Move.sound {h h' : Host} (hm : Move Machine.Careful h h') (hs : h.Sound) : h'.Sound := by
  cases hm with
  | start entry => exact hs.start entry
  | step code hcode hcare => exact hs.step hcode hcare
  | take ht => exact hs.take ht
  | adjust globals primitives limit =>
    exact ⟨hs.word, hs.current, hs.machine.congr rfl rfl,
      hs.stack.imp (fun hset => hset.congr rfl rfl rfl rfl) id, hs.taken, hs.pushed⟩
  | elsewhere hi =>
    obtain ⟨hword, -, hcurrent, -⟩ := hs.current.issue hs.word hi
    refine ⟨hword, hcurrent, hs.machine, hs.stack, ?_, hs.pushed⟩
    intro stack hmem r hr
    obtain ⟨hpast, hread⟩ := hs.taken stack hmem r hr
    exact ⟨(hpast.issue hs.word hi).2.2.1, hread⟩
  | reset hr =>
    obtain ⟨hi, hcap, hregion, hregs, hdepth⟩ := Machine.reset_begins hr
    obtain ⟨hword, hcurrent, -, -⟩ := hs.current.issue hs.word hi
    have hw := hs.machine.rooted.linked.capacity_lt
    refine sound_of_unused (hcap ▸ hw) hregion hregs hdepth hword hcurrent ?_
    intro stack hmem r hr
    obtain ⟨-, -, hpast, hne⟩ := (hs.taken stack hmem r hr).1.issue hs.word hi
    exact ⟨hpast, hne⟩

theorem Reachable.sound {h : Host} (hr : h.Reachable Machine.Careful) : h.Sound := by
  induction hr with
  | create hw hc =>
    obtain ⟨hi, hcap, hregion, hregs, hdepth⟩ := Machine.create_begins hc
    obtain ⟨hword, hcurrent, -, -⟩ := (Generations.past_zero _).issue hw hi
    exact sound_of_unused hcap hregion hregs hdepth hword hcurrent nofun
  | move _ hm ih => exact hm.sound ih

/-- Nothing is wrong with a stack of the machine's own. -/
theorem careful_of_settled {m : Machine} (h : m.Settled) (code : Code) : m.Careful code := by
  intro r hr hload
  have hd := h.depth
  rw [Option.mem_def.mp hr] at hd
  obtain ⟨head, -, -, hg, hc, -⟩ := hd.of_some
  rw [h.sound.rooted.linked.load_frame (Nat.zero_le _) hg hc] at hload
  cases hload

theorem Reachable.proceed {h : Host} (hr : h.Reachable Machine.Careful) (hs : h.machine.Settled)
    {code : Code}
    (hcode : ∀ x f var, code.node? x = some (.nuate (some f) var) → some f ∈ h.taken)
    (expired : Nat → Bool) (fuel : Nat) :
    ∃ pushed, Reachable Machine.Careful
      { h with machine := (Machine.proceed code expired fuel h.machine).2, pushed } := by
  induction fuel generalizing h with
  | zero => exact ⟨h.pushed, hr⟩
  | succ fuel ih =>
    have hcare := careful_of_settled hs code
    have hstep := hr.move (.step h code hcode hcare)
    have hafter := (Machine.step_careful hr.sound.machine (.inl hs) hcare
      fun f var hn => (hr.sound.taken _ (hcode _ f var hn) f rfl).2).2.2
    unfold Machine.proceed
    split
    · exact ⟨h.pushed, hr⟩
    · split
      · next heq =>
        rw [heq] at hstep
        exact ⟨_, hstep⟩
      · next heq =>
        rw [heq] at hstep
        exact ⟨_, hstep⟩
      · next heq =>
        rw [heq] at hstep hafter
        refine ih hstep (hafter.resolve_right ?_) hcode
        rintro ⟨-, ⟨f, hf, hg⟩ | ⟨e, he⟩⟩
        · exact hg (hs.held f hf).generation
        · cases he

/-- A run is a start and steps, and always careful: a step that leaves the machine with a stale
stack is its last. -/
theorem Reachable.run {h : Host} (hr : h.Reachable Machine.Careful) {code : Code}
    (hcode : ∀ x f var, code.node? x = some (.nuate (some f) var) → some f ∈ h.taken)
    (entry : NodeId) (expired : Nat → Bool) (fuel : Nat) :
    ∃ pushed, Reachable Machine.Careful
      { h with machine := (h.machine.runUntil code entry expired fuel).2, pushed } := by
  have hstart := hr.move (.start h entry)
  exact hstart.proceed ⟨hstart.sound.machine, .empty⟩ hcode expired fuel

end Host

/-! ## Walking the stack -/

/-- Under a careful host the walk along the control stack ends, every frame it meets was pushed in
the current epoch, and counting frames finds them all. -/
theorem careful_stack_is_current {h : Host} (hr : h.Reachable Machine.Careful) :
    ∃ rest, h.machine.heap.Walk h.machine.regs.s rest ∧ (∀ r ∈ rest, r ∈ h.pushed) ∧
      (CallFrame.chain? h.machine.heap h.machine.regs.s).map Array.size = some rest.length := by
  have hs := hr.sound
  rcases hs.stack with hset | ⟨f, hf, hg⟩
  · obtain ⟨rest, hw, -, hall⟩ :=
      hset.depth.walk hs.machine.rooted.linked fun _ _ => Nat.zero_le _
    refine ⟨rest, hw, fun r hmem => ?_, CallFrame.chain?_size_of_walk hw⟩
    obtain ⟨hgen, head, hc⟩ := hall r hmem
    have hpushed := hs.pushed _ head hc
    rw [← hgen] at hpushed
    exact hpushed
  · have hn : CallFrame.load? h.machine.heap f = none :=
      Heap.load_frame_eq_none fun hread => hg hread.1
    rw [hf]
    exact ⟨[], .unread hn, nofun, CallFrame.chain?_size_of_walk (.unread hn)⟩

/-- A stale stack is refused, the machine is started anew, and then a frame is pushed. -/
theorem careful_stack_is_current_after_refusal :
    ∃ h : Host, h.Reachable Machine.Careful ∧ h.machine.regs.s = some ⟨⟨0, 2⟩⟩ ∧
      some ⟨⟨0, 1⟩⟩ ∈ h.taken ∧
      ∃ rest, h.machine.heap.Walk h.machine.regs.s rest ∧ (∀ r ∈ rest, r ∈ h.pushed) ∧
        (CallFrame.chain? h.machine.heap h.machine.regs.s).map Array.size = some rest.length := by
  have hstart := (strandedHost_reachable fun _ _ h => h).move (.start _ 0)
  have hpush := hstart.move (.step _ pushCode (pushCode_installs _) (by rintro _ ⟨⟩))
  exact ⟨_, hpush, rfl, List.mem_singleton_self _, careful_stack_is_current hpush⟩

end ClosureMachine
