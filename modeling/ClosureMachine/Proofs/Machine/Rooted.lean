import ClosureMachine.Proofs.Machine.Actions

/-!
What the machine holds on to. A machine is rooted at `base` when its heap is linked from there on
and its environment is a frame stored there; its control stack is held when its top is such a
frame. Every action of the machine keeps the records of the heap and leads from a rooted machine to
a rooted one, whatever the code and the values are.
-/

namespace ClosureMachine

namespace Machine

structure Rooted (base : Nat) (m : Machine) : Prop where
  linked : m.heap.Linked base
  base_le : base ≤ m.heap.used
  env : ∀ r ∈ m.regs.e, m.heap.HoldsEnv base m.heap.used r

/-- The top of the control stack is a stored frame. -/
def Held (base : Nat) (m : Machine) : Prop := ∀ r ∈ m.regs.s, m.heap.HoldsFrame base m.heap.used r

/-- A rooted machine whose heap keeps the records of an earlier heap. -/
structure Advanced (base : Nat) (heap : Heap) (m : Machine) : Prop where
  rooted : m.Rooted base
  held : m.Held base
  keeps : heap.Keeps base m.heap

end Machine

theorem Heap.Keeps.used_le {base : Nat} {heap heap' : Heap} (hk : heap.Keeps base heap') :
    heap.used ≤ heap'.used := by
  cases hu : heap.used with
  | zero => exact Nat.zero_le _
  | succ n =>
    have hn : n < heap.used := by omega
    obtain ⟨c, hc⟩ := Heap.exists_cell_of_lt hn
    have hlt : n < heap'.used := by
      cases c with
      | value v =>
        obtain ⟨w, hw⟩ := hk.value n v hc
        exact Heap.cell?_lt hw
      | _ => exact Heap.cell?_lt (hk.record n _ hc rfl)
    omega

/-- Storing a linked record where there is room for it and its values. -/
theorem Heap.Linked.store {base : Nat} {heap : Heap} (hl : heap.Linked base) (c : Cell)
    (vs : List Value) (hfit : ¬ heap.remaining < vs.length + 1) (ht : c.tailLength = vs.length)
    (hc : heap.LinkedCell base heap.used c) : (heap.extend (c :: vs.map .value)).Linked base := by
  have hu := hl.used_le
  simp only [Arena.remaining] at hfit
  exact hl.extend (by omega) ht hc

namespace Machine

variable {base : Nat} {m m' : Machine}

/-- Rooting looks at the heap and the environment only. -/
theorem Rooted.congr (h : m.Rooted base) (hh : m'.heap = m.heap) (he : m'.regs.e = m.regs.e) :
    m'.Rooted base := by
  constructor
  case linked => exact hh ▸ h.linked
  case base_le => exact hh ▸ h.base_le
  case env =>
    rw [hh, he]
    exact h.env

theorem Rooted.start (h : m.Rooted base) (entry : NodeId) : (m.start entry).Rooted base :=
  ⟨h.linked, h.base_le, by simp [Machine.start]⟩

theorem Held.congr (h : m.Held base) (hh : m'.heap = m.heap) (hs : m'.regs.s = m.regs.s) :
    m'.Held base := by
  intro r hr
  rw [hs] at hr
  rw [hh]
  exact h r hr

/-- Heap, environment and stack as they were. -/
theorem Advanced.of_same (h : m.Rooted base) (hs : m.Held base) (hh : m'.heap = m.heap)
    (he : m'.regs.e = m.regs.e) (hs' : m'.regs.s = m.regs.s) : m'.Advanced base m.heap where
  rooted := h.congr hh he
  held := hs.congr hh hs'
  keeps := hh ▸ Heap.Keeps.refl _ _

theorem Advanced.goto {heap : Heap} (h : m.Advanced base heap) (x : NodeId) :
    (m.goto x).Advanced base heap :=
  ⟨h.rooted.congr rfl rfl, h.held.congr rfl rfl, h.keeps⟩

theorem Held.mono (h : m.Held base) (hk : m.heap.Keeps base m'.heap)
    (hs : m'.regs.s = m.regs.s) : m'.Held base := by
  intro r hr
  rw [hs] at hr
  exact (h r hr).mono hk hk.used_le

private theorem env_mono (h : m.Rooted base) (hk : m.heap.Keeps base m'.heap)
    (he : m'.regs.e = m.regs.e) : ∀ r ∈ m'.regs.e, m'.heap.HoldsEnv base m'.heap.used r := by
  intro r hr
  rw [he] at hr
  exact (h.env r hr).mono hk hk.used_le

section Store

variable (h : m.Rooted base) (hs : m.Held base)
include h hs

theorem advanced_withClosure (formals : FormalsId) (body : NodeId)
    (hfit : ¬ m.heap.remaining < 1) : (m.withClosure formals body).Advanced base m.heap := by
  have hk := Heap.Keeps.extend base m.heap [.closure ⟨formals, body, m.regs.e⟩]
  have hl : (m.withClosure formals body).heap.Linked base :=
    h.linked.store _ [] hfit rfl h.env
  exact ⟨⟨hl, Nat.le_trans h.base_le hk.used_le, env_mono h hk rfl⟩, hs.mono hk rfl, hk⟩

theorem advanced_withContinuation (hfit : ¬ m.heap.remaining < 1) :
    m.withContinuation.Advanced base m.heap := by
  have hk := Heap.Keeps.extend base m.heap [.continuation ⟨m.regs.s, m.depth⟩]
  have hl : m.withContinuation.heap.Linked base := h.linked.store _ [] hfit rfl hs
  exact ⟨⟨hl, Nat.le_trans h.base_le hk.used_le, env_mono h hk rfl⟩, hs.mono hk rfl, hk⟩

theorem advanced_pushed (returnTo : NodeId) (hfit : ¬ m.heap.remaining < m.regs.r.length + 1) :
    (m.pushed returnTo).Advanced base m.heap := by
  have hk : m.heap.Keeps base (m.pushed returnTo).heap := Heap.Keeps.extend base m.heap _
  have hl : (m.pushed returnTo).heap.Linked base := by
    refine h.linked.store _ _ hfit rfl ⟨?_, ?_⟩
    · rw [h.linked.resolve_env h.env]
      exact h.env
    · rw [h.linked.resolve_frame hs]
      exact hs
  refine ⟨⟨hl, Nat.le_trans h.base_le hk.used_le, env_mono h hk rfl⟩, ?_, hk⟩
  rintro _ ⟨⟩
  have hc := Heap.cell?_store_head m.heap
    (.frame ⟨returnTo, .ofRef? m.regs.e, .ofRef? m.regs.s, m.regs.r.length⟩) m.regs.r
  exact ⟨rfl, h.base_le, Heap.cell?_lt hc, _, hc⟩

theorem advanced_entered {r : Ref Closure} {c : Closure} (hc : m.heap.get? r = some c)
    (hr : base ≤ r.addr.offset) (hfit : ¬ m.heap.remaining < m.regs.r.length + 1) :
    (m.entered c).Advanced base m.heap := by
  have hk : m.heap.Keeps base (m.entered c).heap := Heap.Keeps.extend base m.heap _
  have henv := h.linked.closure_env hc hr
  have hl : (m.entered c).heap.Linked base := by
    refine h.linked.store _ _ hfit rfl ?_
    change ∀ r' ∈ (Link.ofRef? c.env).resolve m.heap.generation, _
    rw [h.linked.resolve_env henv]
    exact henv
  refine ⟨⟨hl, Nat.le_trans h.base_le hk.used_le, ?_⟩, hs.mono hk rfl, hk⟩
  rintro _ ⟨⟩
  have hnew := Heap.cell?_store_head m.heap
    (.environment ⟨c.formals, .ofRef? c.env, m.regs.r.length⟩) m.regs.r
  exact ⟨rfl, h.base_le, Heap.cell?_lt hnew, _, hnew⟩

theorem advanced_assign (code : Code) (var : SymbolId) (v : Value) :
    (m.assign code var v).2.Advanced base m.heap := by
  rcases assign_cases h.linked h.env code var v with
    ⟨r, head, i, hr, hc, hi, heq⟩ | ⟨g, -, heq⟩ | ⟨e, heq⟩
  · rw [heq]
    have hk := Heap.Keeps.setSlot h.linked hr.base_le hc hi v
    obtain ⟨w, hw⟩ := h.linked.tail _ _ hr.base_le hc i hi
    exact ⟨⟨h.linked.setValue hw v hk, Nat.le_trans h.base_le hk.used_le, env_mono h hk rfl⟩,
      hs.mono hk rfl, hk⟩
  · rw [heq]
    exact .of_same h hs rfl rfl rfl
  · rw [heq]
    exact .of_same h hs rfl rfl rfl

end Store

/-- A stored frame has saved arguments, and what it refers to is held. -/
theorem advanced_popped (h : m.Rooted base) {top : FrameRef} {head : FrameHeader}
    (hb : base ≤ top.addr.offset) (hc : m.heap.cell? top.addr.offset = some (.frame head))
    (rib : List Value) : (m.popped head rib).Advanced base m.heap := by
  obtain ⟨henv, hlink⟩ := h.linked.link _ _ hb hc
  have hlt := Nat.le_of_lt (Heap.cell?_lt hc)
  exact ⟨⟨h.linked, h.base_le, fun r hr => (henv r hr).mono (Heap.Keeps.refl _ _) hlt⟩,
    fun r hr => (hlink r hr).mono (Heap.Keeps.refl _ _) hlt, Heap.Keeps.refl _ _⟩

/-- Returning with a held stack succeeds exactly when there is a frame. -/
theorem popFrame_cases (h : m.Rooted base) (hs : m.Held base) :
    (m.regs.s = none ∧ m.popFrame = (.error (.stackUnderflow m.regs.x), m)) ∨
      ∃ (top : FrameRef) (head : FrameHeader) (rib : List Value), m.regs.s = some top ∧
        m.heap.HoldsFrame base m.heap.used top ∧
        m.heap.cell? top.addr.offset = some (.frame head) ∧ rib.length = head.length ∧
        m.heap.HoldsValues (top.addr.offset + 1) rib ∧
        m.popFrame = (.ok (), m.popped head rib) := by
  cases hn : m.regs.s with
  | none => exact .inl ⟨rfl, popFrame_of_none hn⟩
  | some top =>
    have htop := hs top hn
    obtain ⟨head, hc⟩ := htop.stored
    obtain ⟨rib, hlen, hrib⟩ := h.linked.exists_values htop.base_le hc
    exact .inr ⟨top, head, rib, rfl, htop, hc, hlen, hrib,
      popFrame_of_frame h.linked hn htop.base_le htop.generation hc hlen hrib⟩

end Machine

end ClosureMachine
