import ClosureMachine.Proofs.Lowering.Tidy
import ClosureMachine.Proofs.Machine.Coherent
import ClosureMachine.Proofs.Machine.Shift
import ClosureMachine.Proofs.Session.Safety

/-!
What lowered code leaves in a machine, whatever the host procedures answer. Control, the frames, the
closures and the continuations of the machine are `Housed`: control stays where it is safe and where
words can name it, every closure in the heap names the start of a body, and every continuation has a
frame. So there is always a frame to return into (`Housed.readable`). `Housed.step` is the step
lemma.
-/

namespace ClosureMachine

/-- An instruction that a word names and at which control may be, with or without a frame. -/
def Code.Hosts (c : Code) (framed : Bool) (id : NodeId) : Prop := id < wordLimit ∧ c.Safe framed id

theorem Code.Hosts.mono {c c' : Code} (hg : c.Grows c') {framed : Bool} {id : NodeId}
    (h : c.Hosts framed id) : c'.Hosts framed id := ⟨h.1, h.2.mono hg⟩

theorem Node.onward_subset (n : Node) : ∀ y ∈ n.onward, y ∈ n.successors := by
  cases n <;> simp [onward, successors]

/-- Safe instructions lead to safe instructions. -/
theorem Regime.safe_onward {c : Code} {k : Nat} {framed : Bool} {n : Node}
    (h : (Regime.lowered c k).Allows framed n) : ∀ y ∈ n.onward, c.Safe framed y := by
  intro y hy
  cases n with
  | refer var next | assign var next =>
    cases List.mem_singleton.mp hy
    exact h
  | constant v next | conti next =>
    cases List.mem_singleton.mp hy
    exact h.2
  | close formals body next =>
    cases List.mem_singleton.mp hy
    exact h.2.2
  | test onTrue onFalse =>
    simp only [Node.onward, List.mem_cons, List.not_mem_nil, or_false] at hy
    rcases hy with rfl | rfl
    · exact h.1
    · exact h.2
  | halt | nuate stack var | frame returnTo next | argument next | apply | ret => cases hy

namespace Machine

/-- The invariant. A machine that has not been started is at the first instruction, which halts. -/
structure Housed (code : Code) (m : Machine) : Prop where
  origin : ∀ n, code.node? 0 = some n → n = .halt
  control : m.regs.x = 0 ∨ code.Hosts m.regs.s.isSome m.regs.x
  frames : ∀ o head, m.heap.cell? o = some (.frame head) →
    code.Hosts (head.link.resolve m.heap.generation : Option FrameRef).isSome head.returnTo
  closures : ∀ o c, m.heap.cell? o = some (.closure c) → code.Hosts true c.body ∧
    ∃ es exit tails, code.Body es exit c.body tails
  continuations : ∀ o k, m.heap.cell? o = some (.continuation k) → k.stack.isSome = true

variable {code : Code} {m m' : Machine}

/-- Nothing but control has changed. -/
theorem Housed.goto (h : m.Housed code) (hh : m'.heap = m.heap)
    (hx : m'.regs.x = 0 ∨ code.Hosts m'.regs.s.isSome m'.regs.x) : m'.Housed code where
  origin := h.origin
  control := hx
  frames := hh ▸ h.frames
  closures := hh ▸ h.closures
  continuations := hh ▸ h.continuations

theorem Housed.grow {code' : Code} (h : m.Housed code) (hg : code.Grows code')
    (ho : ∀ n, code'.node? 0 = some n → n = .halt) : m.Housed code' where
  origin := ho
  control := h.control.imp id (·.mono hg)
  frames o head hc := (h.frames o head hc).mono hg
  closures o c hc := by
    obtain ⟨hhost, es, exit, tails, hbody⟩ := h.closures o c hc
    exact ⟨hhost.mono hg, es, exit, tails, hbody.mono hg⟩
  continuations := h.continuations

/-- The stack of a continuation can be returned into. -/
theorem Housed.readable (h : m.Housed code) (hm : m.Sound) {ref : Ref Continuation}
    {k : Continuation} (hk : m.heap.get? ref = some k) :
    ∃ f ∈ k.stack, f.addr.generation = m.heap.generation ∧
      ∃ head, m.heap.cell? f.addr.offset = some (.frame head) := by
  have hcell := ((Heap.get?_continuation_iff _ _ _).mp hk).2
  obtain ⟨f, hf⟩ := Option.isSome_iff_exists.mp (h.continuations _ k hcell)
  have hd := hm.depths _ k hcell
  rw [hf] at hd
  obtain ⟨head, -, -, hg, hc, -⟩ := hd.of_some
  exact ⟨f, hf, hg, head, hc⟩

/-- What the instruction at hand may be. -/
theorem Housed.allows (h : m.Housed code) {n : Node} (hn : code.node? m.regs.x = some n)
    (hne : n ≠ .halt) : m.regs.x < wordLimit ∧
      (Regime.lowered code 0).Allows m.regs.s.isSome n := by
  rcases h.control with hx | ⟨hword, hsafe⟩
  · rw [hx] at hn
    exact absurd (h.origin n hn) hne
  · obtain ⟨n', hn', hall⟩ := (Regime.lowered_lawful code 0).node _ _ hsafe
    cases hn'.symm.trans hn
    exact ⟨hword, hall⟩

/-- A record and its values have been stored. -/
theorem Housed.store {head : Cell} {vs : List Value} (h : m.Housed code)
    (hh : m'.heap = m.heap.extend (head :: vs.map .value))
    (hx : code.Hosts m'.regs.s.isSome m'.regs.x)
    (hf : ∀ frame, head = .frame frame →
      code.Hosts (frame.link.resolve m.heap.generation : Option FrameRef).isSome frame.returnTo)
    (hc : ∀ c, head ≠ .closure c) (hk : ∀ k, head ≠ .continuation k) : m'.Housed code := by
  have hcell : ∀ o c, m'.heap.cell? o = some c → m.heap.cell? o = some c ∨ c = head ∨
      ∃ v, c = .value v := by
    intro o c ho
    rw [hh] at ho
    rcases Heap.cell?_extend_cases ho with hold | ⟨i, -, hi⟩
    · exact .inl hold
    · cases i with
      | zero => exact .inr (.inl (Option.some.inj hi).symm)
      | succ i =>
        simp only [List.getElem?_cons_succ, List.getElem?_map, Option.map_eq_some_iff] at hi
        obtain ⟨v, -, rfl⟩ := hi
        exact .inr (.inr ⟨v, rfl⟩)
  have hgen : m'.heap.generation = m.heap.generation := by
    rw [hh]
    rfl
  constructor
  case origin => exact h.origin
  case control => exact .inr hx
  case frames =>
    intro o frame ho
    rw [hgen]
    rcases hcell o _ ho with hold | hnew | ⟨v, hv⟩
    · exact h.frames o frame hold
    · exact hf frame hnew.symm
    · cases hv
  case closures =>
    intro o c ho
    rcases hcell o _ ho with hold | hnew | ⟨v, hv⟩
    · exact h.closures o c hold
    · exact absurd hnew.symm (hc c)
    · cases hv
  case continuations =>
    intro o k ho
    rcases hcell o _ ho with hold | hnew | ⟨v, hv⟩
    · exact h.continuations o k hold
    · exact absurd hnew.symm (hk k)
    · cases hv

/-- The step lemma. -/
theorem Housed.step (h : m.Housed code) (ht : code.Tidy) (hm : m.Settled)
    (hnu : ∀ stack var, code.node? m.regs.x ≠ some (.nuate stack var)) :
    (m.step code).2.Housed code := by
  have hr := hm.sound.rooted
  have hgen := (step_coherent (hm.coherent code)).2.generation
  cases step_shift hr code with
  | stay heap x e r s => exact h.goto heap (x ▸ s ▸ h.control)
  | strand stack source heap x e r s unread =>
    rcases source with ⟨var, hn⟩ | ⟨ref, k, hk, rfl⟩
    · exact absurd hn (hnu stack var)
    · obtain ⟨f, hf, hread⟩ := h.readable hm.sound hk
      exact absurd hread (unread f hf)
  | pass n node x cells e r s =>
    obtain ⟨hword, hall⟩ := h.allows node (by rintro rfl; cases x)
    constructor
    case origin => exact h.origin
    case control =>
      rw [s]
      exact .inr ⟨ht.words _ n node _ (n.onward_subset _ x), Regime.safe_onward hall _ x⟩
    case frames =>
      intro o head hc
      rw [hgen]
      rcases cells o _ hc with hold | hadds
      · exact h.frames o head hold
      · cases hadds
    case closures =>
      intro o c hc
      rcases cells o _ hc with hold | hadds
      · exact h.closures o c hold
      · cases hadds with
        | closure formals body next =>
          exact ⟨⟨ht.words _ _ node body (by simp [Node.successors]), hall.2.1⟩,
            ht.bodies _ _ _ _ hword node⟩
    case continuations =>
      intro o k hc
      rcases cells o _ hc with hold | hadds
      · exact h.continuations o k hold
      · cases hadds with
        | continuation next => exact hall.1 rfl
  | collect next node heap x e r s =>
    obtain ⟨-, hall⟩ := h.allows node nofun
    refine h.goto heap (.inr ?_)
    rw [x, s]
    exact ⟨ht.words _ _ node next (by simp [Node.successors]), hall⟩
  | push returnTo next node room heap regs =>
    obtain ⟨-, hall⟩ := h.allows node nofun
    refine h.store heap ?_ ?_ nofun nofun
    · rw [regs]
      exact ⟨ht.words _ _ node next (by simp [Node.successors]), hall.2⟩
    · rintro _ ⟨⟩
      rw [hr.linked.resolve_frame hm.held]
      exact ⟨ht.words _ _ node returnTo (by simp [Node.successors]), hall.1⟩
  | pop top head rib heap live stored length values x e r s =>
    refine h.goto heap (.inr ?_)
    rw [x, s]
    exact h.frames _ head stored
  | enter ref c names node a stored formals arity room heap regs =>
    obtain ⟨-, hall⟩ := h.allows node nofun
    refine h.store heap ?_ nofun nofun nofun
    have hbody := (h.closures _ c ((Heap.get?_closure_iff _ _ _).mp stored).2).1
    have hframed : m.regs.s.isSome = true := hall rfl
    rw [regs]
    change code.Hosts m.regs.s.isSome c.body
    rw [hframed]
    exact hbody

end Machine

end ClosureMachine
