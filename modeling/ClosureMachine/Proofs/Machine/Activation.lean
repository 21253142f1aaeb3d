import ClosureMachine.Proofs.Lowering.Lanes
import ClosureMachine.Proofs.Machine.Coherent

/-!
One activation of a procedure body. It is known by the environment that was made for it, and it
begins with a control stack. Whenever control is in the activation, and wherever one of its frames
resumes, control is on a lane of the body (`Activation.Resumes`): with the stack of the beginning
unless it is bound for a call that is not in tail position, and with just the arguments that have
been collected for the call it is bound for.

`Activation.Tracks` is the invariant and `Tracks.step` its step lemma. What it means at the end of
a lane is said by `Tracks.at_ret` and `Tracks.at_tail`.
-/

namespace ClosureMachine

open Code

/-- An activation of a body: its environment, the control stack it was entered with, and the calls
in tail position. -/
structure Activation where
  env : EnvRef
  stack : Option FrameRef
  tails : List TailCall

namespace Activation

/-- `r` holds the arguments of the instructions `args`: each was in the accumulator when control was
there, in this activation and on the stack of its beginning, after those before it had been
collected. `seen` are the registers that there have been. -/
structure Collected (act : Activation) (seen : Registers → Prop) (args : List NodeId)
    (r : List Value) : Prop where
  length : r.length = args.length
  each : ∀ (i : Nat) (id : NodeId) (v : Value), args[i]? = some id → r[i]? = some v →
    ∃ regs, seen regs ∧ regs.x = id ∧ regs.e = some act.env ∧ regs.s = act.stack ∧
      regs.r = r.take i ∧ regs.a = v

/-- The continuation of the activation. -/
def Continues (act : Activation) (heap : Heap) (v : Value) : Prop :=
  ∃ k cont, v = .continuation k ∧ heap.get? k = some cont ∧ cont.stack = act.stack

/-- `r` holds exactly the arguments of a call in tail position. -/
def Supplies (act : Activation) (seen : Registers → Prop) (heap : Heap) :
    TailCall → List Value → Prop
  | .call _ args, r => act.Collected seen args r
  | .callCc _, r => ∃ v, r = [v] ∧ act.Continues heap v

/-- Control may be at an instruction of the activation with an argument rib and a control stack. -/
inductive Resumes (act : Activation) (code : Code) (seen : Registers → Prop) (heap : Heap) :
    NodeId → List Value → Option FrameRef → Prop
  | body {x : NodeId} : code.Lane act.tails .exit x → Resumes act code seen heap x [] act.stack
  | tail {x site : NodeId} {done rest : List NodeId} {r : List Value} :
    .call site (done ++ rest) ∈ act.tails → code.Lane act.tails (.call site rest) x →
    act.Collected seen done r → Resumes act code seen heap x r act.stack
  | callCc {x site : NodeId} {v : Value} : .callCc site ∈ act.tails →
    code.Lane act.tails (.call site []) x → act.Continues heap v →
    Resumes act code seen heap x [v] act.stack
  | inner {x site : NodeId} {args : List NodeId} {r : List Value} {s : Option FrameRef} :
    code.Lane act.tails (.call site args) x → (∀ t ∈ act.tails, t.site ≠ site) →
    Resumes act code seen heap x r s

/-- The continuation of the activation is about to be collected. -/
structure Captures (act : Activation) (code : Code) (m : Machine) : Prop where
  lane : ∃ site callee, .callCc site ∈ act.tails ∧
    code.node? m.regs.x = some (.argument callee) ∧ code.Lane act.tails (.call site []) callee
  value : act.Continues m.heap m.regs.a
  rib : m.regs.r = []
  stack : m.regs.s = act.stack

/-- The invariant: control and the frames of the activation are where they may be. -/
structure Tracks (act : Activation) (code : Code) (seen : Registers → Prop) (m : Machine) :
    Prop where
  stored : act.env.addr.offset < m.heap.used
  control : m.regs.e = some act.env →
    act.Resumes code seen m.heap m.regs.x m.regs.r m.regs.s ∨ act.Captures code m
  frames : ∀ o head, m.heap.cell? o = some (.frame head) →
    head.env.resolve m.heap.generation = some act.env →
    ∃ rib, rib.length = head.length ∧ m.heap.HoldsValues (o + 1) rib ∧
      act.Resumes code seen m.heap head.returnTo rib (head.link.resolve m.heap.generation)

/-! ## Growing code, heaps and histories -/

section Mono

variable {act : Activation} {code code' : Code} {seen seen' : Registers → Prop}
  {heap heap' : Heap} {base : Nat}

theorem Collected.mono {args : List NodeId} {r : List Value} (h : act.Collected seen args r)
    (hs : ∀ regs, seen regs → seen' regs) : act.Collected seen' args r where
  length := h.length
  each i id v hid hv := by
    obtain ⟨regs, hseen, hrest⟩ := h.each i id v hid hv
    exact ⟨regs, hs regs hseen, hrest⟩

theorem Continues.mono {v : Value} (h : act.Continues heap v) (hk : heap.Keeps base heap') :
    act.Continues heap' v := by
  obtain ⟨k, cont, hv, hc, hstack⟩ := h
  exact ⟨k, cont, hv, hk.get?_continuation hc, hstack⟩

theorem Resumes.mono {x : NodeId} {r : List Value} {s : Option FrameRef}
    (h : act.Resumes code seen heap x r s) (hg : code.Grows code')
    (hs : ∀ regs, seen regs → seen' regs) (hk : heap.Keeps base heap') :
    act.Resumes code' seen' heap' x r s := by
  cases h with
  | body hl => exact .body (hl.mono hg)
  | tail ht hl hc => exact .tail ht (hl.mono hg) (hc.mono hs)
  | callCc ht hl hv => exact .callCc ht (hl.mono hg) (hv.mono hk)
  | inner hl hne => exact .inner (hl.mono hg) hne

theorem Captures.congr {m m' : Machine} (h : act.Captures code m) (hg : code.Grows code')
    (hh : m'.heap = m.heap) (hr : m'.regs = m.regs) : act.Captures code' m' := by
  obtain ⟨site, callee, ht, hn, hl⟩ := h.lane
  constructor
  case lane => exact ⟨site, callee, ht, hr ▸ hg.node? hn, hl.mono hg⟩
  case value => exact hh ▸ hr ▸ h.value
  case rib => exact hr ▸ h.rib
  case stack => exact hr ▸ h.stack

/-- The heap is the same, and so are the registers unless a new run has begun. -/
theorem Tracks.congr {m m' : Machine} (h : act.Tracks code seen m) (hg : code.Grows code')
    (hs : ∀ regs, seen regs → seen' regs) (hh : m'.heap = m.heap)
    (hr : m'.regs = m.regs ∨ m'.regs.e = none) : act.Tracks code' seen' m' where
  stored := hh ▸ h.stored
  control he := by
    rcases hr with hr | hnone
    · rw [hr] at he
      rcases h.control he with hres | hcap
      · rw [hh, hr]
        exact .inl (hres.mono hg hs (.refl 0 _))
      · exact .inr (hcap.congr hg hh hr)
    · cases hnone.symm.trans he
  frames o head hc he := by
    rw [hh] at hc he ⊢
    obtain ⟨rib, hlen, hrib, hres⟩ := h.frames o head hc he
    exact ⟨rib, hlen, hrib, hres.mono hg hs (.refl 0 _)⟩

end Mono

/-! ## One instruction -/

section Instructions

variable {act : Activation} {code : Code} {seen : Registers → Prop} {heap : Heap} {x : NodeId}
  {r : List Value} {s : Option FrameRef}

theorem collected_nil (act : Activation) (seen : Registers → Prop) : act.Collected seen [] [] :=
  ⟨rfl, fun _ _ _ h => by simp at h⟩

/-- One more argument has been collected. -/
theorem Collected.snoc {args : List NodeId} {regs : Registers} (h : act.Collected seen args regs.r)
    (hseen : seen regs) (he : regs.e = some act.env) (hs : regs.s = act.stack) :
    act.Collected seen (args ++ [regs.x]) (regs.r ++ [regs.a]) where
  length := by simp [h.length]
  each i id v hid hv := by
    have hlen := h.length
    rcases Nat.lt_or_ge i regs.r.length with hi | hi
    · rw [List.getElem?_append_left (by omega)] at hid
      rw [List.getElem?_append_left hi] at hv
      obtain ⟨regs', hseen', hx, he', hs', hr, ha⟩ := h.each i id v hid hv
      refine ⟨regs', hseen', hx, he', hs', ?_, ha⟩
      rw [hr, List.take_append_of_le_length (Nat.le_of_lt hi)]
    · rw [List.getElem?_append_right (by omega)] at hid
      rw [List.getElem?_append_right hi] at hv
      have hzero : i - regs.r.length = 0 := by
        have := (List.getElem?_eq_some_iff.mp hv).1
        simp at this
        omega
      rw [hzero] at hv
      rw [← hlen, hzero] at hid
      cases hid
      cases hv
      obtain rfl : i = regs.r.length := by omega
      exact ⟨regs, hseen, rfl, he, hs, by simp, rfl⟩

/-- An instruction that concerns neither arguments nor frames. -/
theorem Resumes.pass (h : act.Resumes code seen heap x r s) {n : Node} {y : NodeId}
    (hn : code.node? x = some n) (hy : y ∈ n.onward) :
    act.Resumes code seen heap y r s ∨
      n = .conti y ∧ r = [] ∧ s = act.stack ∧ ∃ site callee, .callCc site ∈ act.tails ∧
        code.node? y = some (.argument callee) ∧ code.Lane act.tails (.call site []) callee := by
  cases h with
  | body hl =>
    rcases hl.pass hn hy with hl | ⟨-, hconti, hcapture⟩
    · exact .inl (.body hl)
    · exact .inr ⟨hconti, rfl, rfl, hcapture⟩
  | tail ht hl hc =>
    rcases hl.pass hn hy with hl | ⟨hg, -⟩
    · exact .inl (.tail ht hl hc)
    · cases hg
  | callCc ht hl hv =>
    rcases hl.pass hn hy with hl | ⟨hg, -⟩
    · exact .inl (.callCc ht hl hv)
    · cases hg
  | inner hl hne =>
    rcases hl.pass hn hy with hl | ⟨hg, -⟩
    · exact .inl (.inner hl hne)
    · cases hg

/-- An argument is collected for the call that control is bound for. -/
theorem Resumes.collect {regs : Registers} {next : NodeId}
    (h : act.Resumes code seen heap regs.x regs.r regs.s) (hseen : seen regs)
    (he : regs.e = some act.env) (hn : code.node? regs.x = some (.argument next)) :
    act.Resumes code seen heap next (regs.r ++ [regs.a]) regs.s := by
  generalize hx : regs.x = x at h hn
  generalize hr : regs.r = r at h ⊢
  generalize hs : regs.s = s at h ⊢
  cases h with
  | body hl =>
    obtain ⟨site, rest, ht, hl⟩ := hl.collects_tail hn
    have hc := (hr ▸ collected_nil act seen : act.Collected seen [] regs.r).snoc hseen he hs
    rw [hx, hr] at hc
    have ht' : .call site ([x] ++ rest) ∈ act.tails := ht
    exact .tail ht' hl hc
  | tail ht hl hc =>
    obtain ⟨rest, rfl, hnext⟩ := hl.collects hn
    rw [← hr] at hc
    have hc := hc.snoc hseen he hs
    rw [hx, hr] at hc
    exact .tail (by simpa using ht) hnext hc
  | callCc ht hl hv =>
    obtain ⟨rest, hnil, -⟩ := hl.collects hn
    cases hnil
  | inner hl hne =>
    obtain ⟨rest, -, hl⟩ := hl.collects hn
    exact .inner hl hne

/-- A frame is pushed: it resumes where control was bound for, and the call inside it is not in tail
position. -/
theorem Resumes.push (h : act.Resumes code seen heap x r s) {returnTo next : NodeId}
    (hn : code.node? x = some (.frame returnTo next)) :
    (∀ r' s', act.Resumes code seen heap next r' s') ∧
      act.Resumes code seen heap returnTo r s := by
  have hinner : ∀ {g : Goal}, code.Lane act.tails g x →
      ∀ r' s', act.Resumes code seen heap next r' s' := by
    intro g hl r' s'
    obtain ⟨⟨site, args, hnext, hne⟩, -⟩ := hl.pushes hn
    exact .inner hnext hne
  cases h with
  | body hl => exact ⟨hinner hl, .body (hl.pushes hn).2⟩
  | tail ht hl hc => exact ⟨hinner hl, .tail ht (hl.pushes hn).2 hc⟩
  | callCc ht hl hv => exact ⟨hinner hl, .callCc ht (hl.pushes hn).2 hv⟩
  | inner hl hne => exact ⟨hinner hl, .inner (hl.pushes hn).2 hne⟩

/-- At a return, control is at the end of the body. -/
theorem Resumes.at_ret (h : act.Resumes code seen heap x r s) (hn : code.node? x = some .ret) :
    r = [] ∧ s = act.stack := by
  cases h with
  | body _ => exact ⟨rfl, rfl⟩
  | tail _ hl _ | callCc _ hl _ | inner hl _ => exact absurd hn hl.not_ret

/-- At a call in tail position, control has come for this call. -/
theorem Resumes.at_tail (h : act.Resumes code seen heap x r s) (hn : code.node? x = some .apply)
    (huniq : ∀ t ∈ act.tails, ∀ u ∈ act.tails, t.site = u.site → t = u) {t : TailCall}
    (ht : t ∈ act.tails) (hx : x = t.site) : act.Supplies seen heap t r ∧ s = act.stack := by
  cases h with
  | body hl =>
    cases huniq _ ht _ (hl.at_tail_apply hn) hx.symm
    exact ⟨collected_nil act seen, rfl⟩
  | tail hu hl hc =>
    obtain ⟨rfl, rfl⟩ := hl.at_apply hn
    rw [List.append_nil] at hu
    cases huniq _ ht _ hu hx.symm
    exact ⟨hc, rfl⟩
  | callCc hu hl hv =>
    obtain ⟨rfl, -⟩ := hl.at_apply hn
    cases huniq _ ht _ hu hx.symm
    exact ⟨⟨_, rfl, hv⟩, rfl⟩
  | inner hl hne =>
    obtain ⟨rfl, -⟩ := hl.at_apply hn
    exact absurd hx.symm (hne t ht)

end Instructions

end Activation

theorem Heap.HoldsValues.unique {heap : Heap} {base : Nat} {vs ws : List Value}
    (h : heap.HoldsValues base vs) (h' : heap.HoldsValues base ws)
    (hl : vs.length = ws.length) : vs = ws := by
  have hvs := (Heap.readFirst_eq_some_iff heap base ws.length vs).mpr ⟨hl, h⟩
  have hws := (Heap.readFirst_eq_some_iff heap base ws.length ws).mpr ⟨rfl, h'⟩
  exact Option.some.inj (hvs.symm.trans hws)

/-! ## Steps that need a closer look -/

namespace Machine

variable {m : Machine} {code : Code}

/-- A step that collects an argument fails only for the limit. -/
theorem step_argument {next : NodeId} (hn : code.node? m.regs.x = some (.argument next)) :
    (m.step code).2 = m ∨
      (m.step code).2 = { m.tick with regs := { m.regs.collect with x := next } } := by
  cases hl : m.exhaustedLimit? with
  | some limit => exact .inl (by simp only [step, hl])
  | none => exact .inr (by rw [step_eq_execute hl hn]; rfl)

/-- A step that passes a capturing instruction leaves the continuation in the accumulator. -/
theorem step_conti {next : NodeId} (hn : code.node? m.regs.x = some (.conti next)) :
    (m.step code).2.regs.x = m.regs.x ∨ ∃ k, (m.step code).2.regs.a = .continuation k ∧
      (m.step code).2.heap.get? k = some ⟨m.regs.s, m.depth⟩ := by
  cases hl : m.exhaustedLimit? with
  | some limit => exact .inl (by simp only [step, hl])
  | none =>
    rw [step_eq_execute hl hn, execute, capture_eq]
    split
    · exact .inl rfl
    · refine .inr ⟨⟨⟨m.heap.used, m.heap.generation⟩⟩, rfl, ?_⟩
      rw [Heap.get?_continuation_iff]
      exact ⟨rfl, Heap.cell?_store_head m.heap _ []⟩

end Machine

namespace Activation

variable {act : Activation} {code : Code} {seen : Registers → Prop} {m m' : Machine}

/-! ## One step -/

/-- The heap has grown by no frame. -/
theorem Tracks.advance (h : act.Tracks code seen m) (hk : m.heap.Keeps 0 m'.heap)
    (hframes : ∀ o head, m'.heap.cell? o = some (.frame head) →
      m.heap.cell? o = some (.frame head))
    (hcontrol : m'.regs.e = some act.env →
      act.Resumes code seen m'.heap m'.regs.x m'.regs.r m'.regs.s ∨ act.Captures code m') :
    act.Tracks code seen m' where
  stored := Nat.lt_of_lt_of_le h.stored hk.used_le
  control := hcontrol
  frames o head hc he := by
    rw [hk.generation] at he ⊢
    obtain ⟨rib, hlen, hrib, hres⟩ := h.frames o head (hframes o head hc) he
    exact ⟨rib, hlen, hk.holdsValues_rib (Nat.zero_le _) (hframes o head hc) hlen hrib,
      hres.mono (.refl _) (fun _ hs => hs) hk⟩

/-- Entering a body stores no frame. -/
theorem frame_of_entered {c : Closure} {o : Nat} {head : FrameHeader}
    (h : (m.entered c).heap.cell? o = some (.frame head)) :
    m.heap.cell? o = some (.frame head) := by
  rcases Heap.cell?_extend_cases h with hold | ⟨i, -, hi⟩
  · exact hold
  · cases i with
    | zero => cases hi
    | succ i => simp at hi

/-- A frame of the activation has been pushed. -/
theorem Tracks.push (h : act.Tracks code seen m) (hm : m.Settled) {returnTo next : NodeId}
    (hn : code.node? m.regs.x = some (.frame returnTo next))
    (hk : m.heap.Keeps 0 m'.heap) (hheap : m'.heap = (m.pushed returnTo).heap)
    (hregs : m'.regs = { (m.pushed returnTo).regs with x := next }) :
    act.Tracks code seen m' := by
  have hr := hm.sound.rooted
  have hres : m.regs.e = some act.env →
      act.Resumes code seen m.heap m.regs.x m.regs.r m.regs.s := by
    intro he
    rcases h.control he with hres | hcap
    · exact hres
    · obtain ⟨site, callee, -, hnode, -⟩ := hcap.lane
      cases hnode.symm.trans hn
  constructor
  case stored => exact Nat.lt_of_lt_of_le h.stored hk.used_le
  case control =>
    intro he
    rw [hregs] at he ⊢
    exact .inl (((hres he).push hn).1 _ _ |>.mono (.refl _) (fun _ hs => hs) hk)
  case frames =>
    intro o head hc he
    rw [hk.generation] at he ⊢
    rw [hheap] at hc
    rcases Heap.cell?_extend_cases hc with hold | ⟨i, rfl, hi⟩
    · obtain ⟨rib, hlen, hrib, hold'⟩ := h.frames o head hold he
      exact ⟨rib, hlen, hk.holdsValues_rib (Nat.zero_le _) hold hlen hrib,
        hold'.mono (.refl _) (fun _ hs => hs) hk⟩
    · cases i with
      | succ i => simp at hi
      | zero =>
        cases hi
        rw [hr.linked.resolve_env hr.env] at he
        rw [hr.linked.resolve_frame hm.held]
        refine ⟨m.regs.r, rfl, ?_, ((hres he).push hn).2.mono (.refl _) (fun _ hs => hs) hk⟩
        rw [hheap]
        exact Heap.holdsValues_store m.heap _ m.regs.r

/-- The continuation of the activation is collected. -/
theorem Tracks.captures (h : act.Tracks code seen m) (hcap : act.Captures code m) :
    act.Tracks code seen (m.step code).2 := by
  obtain ⟨site, callee, ht, hn, hl⟩ := hcap.lane
  rcases Machine.step_argument hn with heq | heq
  · rw [heq]
    exact h
  · rw [heq]
    refine h.advance (.refl _ _) (fun _ _ hc => hc) fun _ => .inl ?_
    have hrib : ({ m.regs.collect with x := callee } : Registers).r = [m.regs.a] := by
      change m.regs.collect.r = _
      rw [Registers.r_collect, hcap.rib, List.nil_append]
    change act.Resumes code seen m.heap callee _ m.regs.s
    rw [hrib, hcap.stack]
    exact .callCc ht hl hcap.value

/-- The step lemma, for a machine whose continuations can all be returned into. -/
theorem Tracks.step (h : act.Tracks code seen m) (hm : m.Settled) (hseen : seen m.regs)
    (hnu : ∀ stack var, code.node? m.regs.x ≠ some (.nuate stack var))
    (hread : ∀ (ref : Ref Continuation) (k : Continuation), m.heap.get? ref = some k →
      ∃ f ∈ k.stack, f.addr.generation = m.heap.generation ∧
        ∃ head, m.heap.cell? f.addr.offset = some (.frame head)) :
    act.Tracks code seen (m.step code).2 := by
  by_cases hcap : act.Captures code m
  · exact h.captures hcap
  have hres : m.regs.e = some act.env →
      act.Resumes code seen m.heap m.regs.x m.regs.r m.regs.s :=
    fun he => (h.control he).resolve_right hcap
  have hk := (Machine.step_coherent (hm.coherent code)).2
  cases Machine.step_shift hm.sound.rooted code with
  | stay heap x e r s =>
    refine h.advance hk (fun o head hc => heap ▸ hc) fun he => .inl ?_
    rw [heap, x, r, s]
    exact hres (e ▸ he)
  | pass n node x cells e r s =>
    refine h.advance hk ?_ fun he => ?_
    · intro o head hc
      rcases cells o _ hc with hold | hadds
      · exact hold
      · cases hadds
    · rw [r, s]
      rcases (hres (e ▸ he)).pass node x with hpass | ⟨rfl, hnil, hstack, hlane⟩
      · exact .inl (hpass.mono (.refl _) (fun _ hs => hs) hk)
      · rcases Machine.step_conti node with hsame | ⟨k, ha, hcell⟩
        · obtain ⟨site, callee, -, hnode, -⟩ := hlane
          rw [hsame] at hnode
          cases hnode.symm.trans node
        · exact .inr ⟨hlane, ⟨k, _, ha, hcell, hstack⟩, r.trans hnil, s.trans hstack⟩
  | collect next node heap x e r s =>
    refine h.advance hk (fun o head hc => heap ▸ hc) fun he => .inl ?_
    rw [heap, x, r, s]
    exact (hres (e ▸ he)).collect hseen (e ▸ he) node
  | push returnTo next node room heap regs => exact h.push hm node hk heap regs
  | pop top head rib heap live stored length values x e r s =>
    refine h.advance hk (fun o head hc => heap ▸ hc) fun he => .inl ?_
    rw [heap, x, r, s]
    rw [e] at he
    obtain ⟨rib', hlen, hrib, hresumes⟩ := h.frames _ head stored he
    cases Heap.HoldsValues.unique values hrib (length.trans hlen.symm)
    exact hresumes
  | enter ref c names node a stored formals arity room heap regs =>
    refine h.advance hk ?_ fun he => ?_
    · intro o head hc
      rw [heap] at hc
      exact frame_of_entered hc
    · rw [regs] at he
      have henv := congrArg (fun e : Option EnvRef => e.map (·.addr.offset)) he
      have hlt := h.stored
      simp only [Machine.entered, Option.map_some, Option.some.injEq] at henv
      omega
  | strand stack source heap x e r s unread =>
    rcases source with ⟨var, hn⟩ | ⟨ref, k, hk', rfl⟩
    · exact absurd hn (hnu stack var)
    · obtain ⟨f, hf, hlive⟩ := hread ref k hk'
      exact absurd hlive (unread f hf)

/-! ## The beginning and the ends -/

/-- A body has just been entered. -/
theorem tracks_entered (hm : m.Settled) {c : Closure} {es : List Expr} {exit : NodeId}
    {tails : List TailCall} (hb : code.Body es exit c.body tails) (seen : Registers → Prop) :
    (⟨⟨⟨m.heap.used, m.heap.generation⟩⟩, m.regs.s, tails⟩ : Activation).Tracks code seen
      (m.entered c) := by
  have hl := hm.sound.rooted.linked
  constructor
  case stored =>
    simp only [Machine.entered, Heap.extend_used, List.length_cons]
    omega
  case control => exact fun _ => .inl (.body hb.lane)
  case frames =>
    intro o head hc he
    have hold := frame_of_entered hc
    have henv := (hl.link _ _ (Nat.zero_le _) hold).1 _ he
    have hlt := henv.lt_bound
    have := Heap.cell?_lt hold
    simp only at hlt
    omega

theorem Tracks.at_ret (h : act.Tracks code seen m) (he : m.regs.e = some act.env)
    (hn : code.node? m.regs.x = some .ret) : m.regs.r = [] ∧ m.regs.s = act.stack := by
  rcases h.control he with hres | hcap
  · exact hres.at_ret hn
  · obtain ⟨site, callee, -, hnode, -⟩ := hcap.lane
    cases hnode.symm.trans hn

theorem Tracks.at_tail (h : act.Tracks code seen m) (he : m.regs.e = some act.env)
    (hn : code.node? m.regs.x = some .apply)
    (huniq : ∀ t ∈ act.tails, ∀ u ∈ act.tails, t.site = u.site → t = u) {t : TailCall}
    (ht : t ∈ act.tails) (hx : m.regs.x = t.site) :
    act.Supplies seen m.heap t m.regs.r ∧ m.regs.s = act.stack := by
  rcases h.control he with hres | hcap
  · exact hres.at_tail hn huniq ht hx
  · obtain ⟨site, callee, -, hnode, -⟩ := hcap.lane
    cases hnode.symm.trans hn

end Activation

end ClosureMachine
