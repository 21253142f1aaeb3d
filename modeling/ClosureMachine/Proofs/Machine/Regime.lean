import ClosureMachine.Proofs.Code.Growth
import ClosureMachine.Proofs.Heap.Depth
import ClosureMachine.Proofs.Machine.Rooted

/-!
Regimes: store typing for the machine. A regime says at which instructions control may be, with and
without a frame on the control stack, and which errors host procedures may report. It is lawful when
the instructions it allows lead only to instructions it allows. A lawful regime that governs a
machine goes on governing it, step after step, and no step then finds anything malformed
(`step_live`): every closure, environment, frame and continuation stored since `base` agrees with
the code. In a strict regime every return has a frame to return into.
-/

namespace ClosureMachine

/-- Complete in itself, or one of the first `n` host procedures. -/
def Value.Plain (n : Nat) : Value → Prop
  | closure _ | continuation _ => False
  | primitive id => id < n
  | _ => True

structure Regime where
  code : Code
  /-- Records before this offset are nobody's business. -/
  base : Nat
  /-- Number of host procedures. -/
  procedures : Nat
  /-- Errors that host procedures may report. -/
  reports : MachineError → Prop
  /-- Whether every return is to have a frame to return into. -/
  strict : Bool
  /-- Control may be at an instruction while there is a frame on the stack, or while there is
  none. -/
  runs : Bool → NodeId → Prop

namespace Regime

/-- What the regime asks of an instruction that runs with or without a frame. -/
def Allows (d : Regime) (framed : Bool) : Node → Prop
  | .halt => True
  | .refer _ next | .assign _ next | .argument next => d.runs framed next
  | .constant v next => v.Plain d.procedures ∧ d.runs framed next
  | .close formals body next =>
    (∃ names, d.code.formals? formals = some names) ∧ d.runs true body ∧ d.runs framed next
  | .test onTrue onFalse => d.runs framed onTrue ∧ d.runs framed onFalse
  | .conti next => (d.strict = true → framed = true) ∧ d.runs framed next
  | .nuate _ _ => d.strict = false
  | .frame returnTo next => d.runs framed returnTo ∧ d.runs true next
  | .apply | .ret => d.strict = true → framed = true

structure Lawful (d : Regime) : Prop where
  node : ∀ framed id, d.runs framed id → ∃ n, d.code.node? id = some n ∧ d.Allows framed n
  lax : d.strict = false → ∀ framed framed' id, d.runs framed id → d.runs framed' id

/-- Values the machine may carry: boxed ones lead to records stored since `base`. -/
def Admits (d : Regime) (heap : Heap) : Value → Prop
  | .closure r =>
    d.base ≤ r.addr.offset ∧ r.addr.generation = heap.generation ∧
      ∃ c, heap.cell? r.addr.offset = some (.closure c)
  | .continuation r =>
    d.base ≤ r.addr.offset ∧ r.addr.generation = heap.generation ∧
      ∃ k, heap.cell? r.addr.offset = some (.continuation k)
  | .primitive id => id < d.procedures
  | _ => True

/-- What the regime asks of a stored cell. -/
def Accepts (d : Regime) (heap : Heap) : Cell → Prop
  | .value v => d.Admits heap v
  | .environment h => ∃ names, d.code.formals? h.names = some names ∧ names.length = h.length
  | .frame h =>
    d.runs (h.link.resolve heap.generation : Option FrameRef).isSome h.returnTo
  | .closure c => (∃ names, d.code.formals? c.formals = some names) ∧ d.runs true c.body
  | .continuation k => d.strict = true → k.stack.isSome = true
  | .blank => True

/-- A host procedure that makes nothing up: it answers with plain values or its arguments, and
reports only errors that it may report. -/
def Trusts (d : Regime) (p : Primitive) : Prop :=
  ∀ args, (∀ v, p.run args = .ok v → v.Plain d.procedures ∨ v ∈ args) ∧
    ∀ e, p.run args = .error e → d.reports e

/-- The invariant of the heap: everything stored since `base` is acceptable. -/
def Stocks (d : Regime) (heap : Heap) : Prop :=
  ∀ o c, d.base ≤ o → heap.cell? o = some c → d.Accepts heap c

/-- The invariant of the machine, apart from where control is. -/
structure Governs (d : Regime) (m : Machine) : Prop where
  rooted : m.Rooted d.base
  held : m.Held d.base
  stocks : d.Stocks m.heap
  accumulator : d.Admits m.heap m.regs.a
  rib : ∀ v ∈ m.regs.r, d.Admits m.heap v
  globals : ∀ id v, (id, v) ∈ m.globals.bindings → d.Admits m.heap v
  procedures : m.primitives.size = d.procedures
  trusts : ∀ p ∈ m.primitives, d.Trusts p
  tops : ∀ id f var, d.code.node? id = some (.nuate (some f) var) →
    m.heap.HoldsFrame d.base m.heap.used f

/-- The invariant of the machine. -/
structure Live (d : Regime) (m : Machine) : Prop where
  governs : d.Governs m
  control : d.runs m.regs.s.isSome m.regs.x

/-- Errors that a step may report under the regime. -/
def Tolerates (d : Regime) : MachineError → Prop
  | .unboundVariable _ | .notCallable _ | .arityMismatch .. | .outOfMemory _
  | .instructionLimitExceeded _ => True
  | .stackUnderflow id => d.strict = false ∨ d.reports (.stackUnderflow id)
  | e => d.reports e

/-- In a strict regime there is a frame both times, in a lax one it does not matter. -/
theorem Lawful.runs_again {d : Regime} (hl : d.Lawful) {framed framed' : Bool} {id : NodeId}
    (h : d.runs framed id) (hf : d.strict = true → framed = true)
    (hf' : d.strict = true → framed' = true) : d.runs framed' id := by
  cases hs : d.strict with
  | true => exact hf' hs ▸ hf hs ▸ h
  | false => exact hl.lax hs _ _ _ h

theorem tolerates_of_reports {d : Regime} {e : MachineError} (h : d.reports e) :
    d.Tolerates e := by
  cases e with
  | stackUnderflow id => exact .inr h
  | unboundVariable | notCallable | arityMismatch | outOfMemory | instructionLimitExceeded =>
    trivial
  | _ => exact h

theorem admits_of_plain {d : Regime} {v : Value} (h : v.Plain d.procedures) (heap : Heap) :
    d.Admits heap v := by
  cases v with
  | closure r => exact h.elim
  | continuation r => exact h.elim
  | primitive id => exact h
  | _ => trivial

/-! ## Growing heaps -/

section Mono

variable {d : Regime} {heap heap' : Heap}

theorem Admits.mono {v : Value} (h : d.Admits heap v) (hk : heap.Keeps d.base heap') :
    d.Admits heap' v := by
  cases v with
  | closure r =>
    obtain ⟨hb, hg, c, hc⟩ := h
    exact ⟨hb, hg.trans hk.generation.symm, c, hk.record _ _ hc rfl⟩
  | continuation r =>
    obtain ⟨hb, hg, k, hc⟩ := h
    exact ⟨hb, hg.trans hk.generation.symm, k, hk.record _ _ hc rfl⟩
  | primitive id => exact h
  | _ => trivial

theorem Accepts.mono {c : Cell} (h : d.Accepts heap c) (hk : heap.Keeps d.base heap') :
    d.Accepts heap' c := by
  cases c with
  | value v => exact Admits.mono h hk
  | frame head =>
    change d.runs (head.link.resolve heap'.generation : Option FrameRef).isSome head.returnTo
    rw [hk.generation]
    exact h
  | environment head => exact h
  | closure c => exact h
  | continuation k => exact h
  | blank => trivial

theorem Stocks.extend (h : d.Stocks heap) (c : Cell) (vs : List Value) (hc : d.Accepts heap c)
    (hvs : ∀ v ∈ vs, d.Admits heap v) : d.Stocks (heap.extend (c :: vs.map .value)) := by
  have hk := Heap.Keeps.extend d.base heap (c :: vs.map .value)
  intro o c' ho hc'
  rcases Heap.cell?_extend_cases hc' with hold | ⟨i, -, hi⟩
  · exact (h o c' ho hold).mono hk
  · cases i with
    | zero =>
      cases hi
      exact hc.mono hk
    | succ i =>
      simp only [List.getElem?_cons_succ, List.getElem?_map, Option.map_eq_some_iff] at hi
      obtain ⟨v, hv, rfl⟩ := hi
      exact (hvs v (List.mem_of_getElem? hv)).mono hk

theorem Stocks.setValue (h : d.Stocks heap) {o : Nat} {v : Value} (hv : d.Admits heap v)
    (hk : heap.Keeps d.base (heap.setValue o v)) : d.Stocks (heap.setValue o v) := by
  intro o' c ho hc
  by_cases heq : o = o'
  · subst heq
    have hlt := Heap.cell?_lt hc
    rw [Heap.setValue_used] at hlt
    rw [Heap.cell?_setValue_same _ _ _ hlt] at hc
    cases hc
    exact hv.mono hk
  · rw [Heap.cell?_setValue_ne _ _ _ heq] at hc
    exact (h o' c ho hc).mono hk

end Mono

/-! ## Actions -/

variable {d : Regime} {m m' : Machine}

/-- What an action must leave: on failure a live machine, on success a governed one of which `P`
holds. -/
def Yields (d : Regime) (P : Machine → Prop) : Machine.Result Unit → Prop
  | (.error e, m) => d.Tolerates e ∧ d.Live m
  | (.ok (), m) => d.Governs m ∧ P m

/-- What a step must leave. -/
def Leaves (d : Regime) : Machine.Result Progress → Prop
  | (.error e, m) => d.Tolerates e ∧ d.Live m
  | (.ok .running, m) => d.Live m
  | (.ok (.halted v), m) => d.Admits m.heap v ∧ d.Live m

theorem Leaves.live {r : Machine.Result Progress} (h : d.Leaves r) : d.Live r.2 := by
  obtain ⟨e | (_ | v), m'⟩ := r
  · exact h.2
  · exact h
  · exact h.2

theorem Leaves.halted {r : Machine.Result Progress} (h : d.Leaves r) {v : Value}
    (hv : r.1 = .ok (.halted v)) : d.Admits r.2.heap v := by
  obtain ⟨_, m'⟩ := r
  cases hv
  exact h.1

theorem Leaves.error {r : Machine.Result Progress} (h : d.Leaves r) {e : MachineError}
    (he : r.1 = .error e) : d.Tolerates e := by
  obtain ⟨_, m'⟩ := r
  cases he
  exact h.1

/-- Control may pass to `next`. -/
def Reaches (d : Regime) (next : NodeId) (m : Machine) : Prop := d.runs m.regs.s.isSome next

/-- Control may stay where it is. -/
def Stays (d : Regime) (m : Machine) : Prop := d.runs m.regs.s.isSome m.regs.x

theorem Governs.advance (h : d.Governs m) (ha : m'.Advanced d.base m.heap)
    (hst : d.Stocks m'.heap) (hacc : d.Admits m'.heap m'.regs.a)
    (hrib : ∀ v ∈ m'.regs.r, d.Admits m'.heap v) (hg : m'.globals = m.globals)
    (hp : m'.primitives = m.primitives) : d.Governs m' where
  rooted := ha.rooted
  held := ha.held
  stocks := hst
  accumulator := hacc
  rib := hrib
  globals id v hv := (h.globals id v (hg ▸ hv)).mono ha.keeps
  procedures := hp ▸ h.procedures
  trusts := hp ▸ h.trusts
  tops id f var hn := (h.tops id f var hn).mono ha.keeps ha.keeps.used_le

/-- The instruction pointer, the counters and the limit do not matter. -/
theorem Governs.congr (h : d.Governs m) (hh : m'.heap = m.heap) (he : m'.regs.e = m.regs.e)
    (hs : m'.regs.s = m.regs.s) (ha : d.Admits m.heap m'.regs.a)
    (hr : ∀ v ∈ m'.regs.r, d.Admits m.heap v) (hg : m'.globals = m.globals)
    (hp : m'.primitives = m.primitives) : d.Governs m' :=
  h.advance (.of_same h.rooted h.held hh he hs) (hh ▸ h.stocks) (hh ▸ ha) (hh ▸ hr) hg hp

theorem Governs.with_globals (h : d.Governs m) {g : Globals}
    (hg : ∀ id v, (id, v) ∈ g.bindings → d.Admits m.heap v) :
    d.Governs { m with globals := g } where
  rooted := h.rooted.congr rfl rfl
  held := h.held
  stocks := h.stocks
  accumulator := h.accumulator
  rib := h.rib
  globals := hg
  procedures := h.procedures
  trusts := h.trusts
  tops := h.tops

/-- A machine in which nothing leads to what was stored before. -/
theorem Governs.of_cleared (hu : m.heap.used ≤ m.heap.capacity)
    (hw : m.heap.capacity < wordLimit) (hb : d.base = m.heap.used) {entry : NodeId}
    (hr : m.regs = { x := entry })
    (hg : ∀ id v, (id, v) ∈ m.globals.bindings → v.Plain d.procedures)
    (hp : m.primitives.size = d.procedures) (ht : ∀ p ∈ m.primitives, d.Trusts p)
    (hn : ∀ id f var, d.code.node? id ≠ some (.nuate (some f) var)) : d.Governs m where
  rooted := ⟨.empty hu hw (Nat.le_of_eq hb.symm), Nat.le_of_eq hb, by simp [hr]⟩
  held := by simp [Machine.Held, hr]
  stocks o c ho hc := absurd (Heap.cell?_lt hc) (Nat.not_lt.mpr (hb ▸ ho))
  accumulator := by simp [hr, Admits]
  rib := by simp [hr, Registers.r]
  globals id v hv := admits_of_plain (hg id v hv) _
  procedures := hp
  trusts := ht
  tops id f var h := absurd h (hn id f var)

/-- Starting anew leaves nothing but globals and procedures. -/
theorem Governs.start (h : d.Governs m) (entry : NodeId) : d.Governs (m.start entry) where
  rooted := h.rooted.start entry
  held := fun _ hr => nomatch hr
  stocks := h.stocks
  accumulator := trivial
  rib := fun _ hv => nomatch hv
  globals := h.globals
  procedures := h.procedures
  trusts := h.trusts
  tops := h.tops

/-- The same regime over more code. -/
theorem Governs.grow (h : d.Governs m) {c : Code} {runs : Bool → NodeId → Prop}
    (hc : d.code.Grows c) (hr : ∀ framed id, d.runs framed id → runs framed id)
    (hs : ∀ id f var, c.node? id = some (.nuate (some f) var) →
      m.heap.HoldsFrame d.base m.heap.used f) :
    ({ d with code := c, runs } : Regime).Governs m where
  rooted := h.rooted
  held := h.held
  stocks o cell ho hcell := by
    have hacc := h.stocks o cell ho hcell
    cases cell with
    | environment head =>
      obtain ⟨names, hn, hlen⟩ := hacc
      exact ⟨names, hc.formals? hn, hlen⟩
    | frame head => exact hr _ _ hacc
    | closure cl =>
      obtain ⟨⟨names, hn⟩, hb⟩ := hacc
      exact ⟨⟨names, hc.formals? hn⟩, hr _ _ hb⟩
    | value v => exact hacc
    | continuation k => exact hacc
    | blank => trivial
  accumulator := h.accumulator
  rib := h.rib
  globals := h.globals
  procedures := h.procedures
  trusts := h.trusts
  tops := hs

theorem Governs.rib_mono (h : d.Governs m) {heap : Heap} (hk : m.heap.Keeps d.base heap) :
    ∀ v ∈ m.regs.r, d.Admits heap v := fun v hv => (h.rib v hv).mono hk

theorem yields_makeClosure (h : d.Live m) {formals : FormalsId} {body next : NodeId}
    (hf : ∃ names, d.code.formals? formals = some names) (hb : d.runs true body)
    (hx : d.Reaches next m) : d.Yields (d.Reaches next) (m.makeClosure formals body) := by
  have hg := h.governs
  rw [Machine.makeClosure_eq]
  split
  · exact ⟨trivial, h⟩
  · next hfit =>
    have ha := Machine.advanced_withClosure hg.rooted hg.held formals body hfit
    have hst : d.Stocks (m.withClosure formals body).heap :=
      hg.stocks.extend (.closure ⟨formals, body, m.regs.e⟩) [] ⟨hf, hb⟩ (by simp)
    have hc := Heap.cell?_store_head m.heap (.closure ⟨formals, body, m.regs.e⟩) []
    exact ⟨hg.advance ha hst ⟨hg.rooted.base_le, rfl, _, hc⟩ (hg.rib_mono ha.keeps) rfl rfl, hx⟩

theorem yields_capture (h : d.Live m) {next : NodeId}
    (hf : d.strict = true → m.regs.s.isSome = true) (hx : d.Reaches next m) :
    d.Yields (d.Reaches next) m.capture := by
  have hg := h.governs
  rw [Machine.capture_eq]
  split
  · exact ⟨trivial, h⟩
  · next hfit =>
    have ha := Machine.advanced_withContinuation hg.rooted hg.held hfit
    have hst : d.Stocks m.withContinuation.heap :=
      hg.stocks.extend (.continuation ⟨m.regs.s, m.depth⟩) [] hf (by simp)
    have hc := Heap.cell?_store_head m.heap (.continuation ⟨m.regs.s, m.depth⟩) []
    exact ⟨hg.advance ha hst ⟨hg.rooted.base_le, rfl, _, hc⟩ (hg.rib_mono ha.keeps) rfl rfl, hx⟩

theorem yields_pushFrame (h : d.Live m) {returnTo next : NodeId} (hr : d.Reaches returnTo m)
    (hx : d.runs true next) : d.Yields (d.Reaches next) (m.pushFrame returnTo) := by
  have hg := h.governs
  rw [Machine.pushFrame_eq hg.rooted.linked.capacity_lt]
  split
  · exact ⟨trivial, h⟩
  · next hfit =>
    have ha := Machine.advanced_pushed hg.rooted hg.held returnTo hfit
    have hc : d.Accepts m.heap
        (.frame ⟨returnTo, .ofRef? m.regs.e, .ofRef? m.regs.s, m.regs.r.length⟩) := by
      change d.runs ((Link.ofRef? m.regs.s).resolve m.heap.generation).isSome returnTo
      rw [hg.rooted.linked.resolve_frame hg.held]
      exact hr
    have hst : d.Stocks (m.pushed returnTo).heap := hg.stocks.extend _ _ hc hg.rib
    have hvs : ∀ v ∈ (m.pushed returnTo).regs.r, d.Admits (m.pushed returnTo).heap v :=
      fun v hv => nomatch hv
    exact ⟨hg.advance ha hst (hg.accumulator.mono ha.keeps) hvs rfl rfl, hx⟩

/-- Returning leads to where the top frame says. Without a frame nothing happens. -/
theorem yields_popFrame (hg : d.Governs m) (hx : d.Stays m)
    (hs : d.strict = true → m.regs.s.isSome = true) : d.Yields d.Stays m.popFrame := by
  rcases Machine.popFrame_cases hg.rooted hg.held with
    ⟨hn, heq⟩ | ⟨top, head, rib, htop, hf, hc, hlen, hrib, heq⟩
  · rw [heq]
    refine ⟨.inl ?_, hg, hx⟩
    rw [hn] at hs
    simpa using hs
  · rw [heq]
    have ha := Machine.advanced_popped hg.rooted hf.base_le hc rib
    have hvs : ∀ v ∈ (m.popped head rib).regs.r, d.Admits m.heap v := by
      intro v hv
      have hv : v ∈ rib := by simpa [Machine.popped, Registers.r, Registers.setRib] using hv
      obtain ⟨i, hi⟩ := List.mem_iff_getElem?.mp hv
      exact hg.stocks _ _ (by have := hf.base_le; omega) (hrib i v hi)
    exact ⟨hg.advance ha hg.stocks hg.accumulator hvs rfl rfl, hg.stocks _ _ hf.base_le hc⟩

theorem yields_applyClosure (h : d.Live m) {r : Ref Closure}
    (ha : d.Admits m.heap (.closure r)) (hf : d.strict = true → m.regs.s.isSome = true)
    (hl : d.Lawful) : d.Yields d.Stays (m.applyClosure d.code r) := by
  have hg := h.governs
  obtain ⟨hb, hgen, c, hc⟩ := ha
  obtain ⟨⟨names, hn⟩, hbody⟩ := hg.stocks _ _ hb hc
  have hget : m.heap.get? r = some c := (Heap.get?_closure_iff _ _ _).mpr ⟨hgen, hc⟩
  rw [Machine.applyClosure_eq hg.rooted.linked.capacity_lt hget hn]
  split
  · exact ⟨trivial, h⟩
  · next harity =>
    split
    · exact ⟨trivial, h⟩
    · next hfit =>
      have ha := Machine.advanced_entered hg.rooted hg.held hget hb hfit
      have hst : d.Stocks (m.entered c).heap :=
        hg.stocks.extend _ _ ⟨names, hn, Decidable.not_not.mp harity⟩ hg.rib
      have hvs : ∀ v ∈ (m.entered c).regs.r, d.Admits (m.entered c).heap v :=
        fun v hv => nomatch hv
      refine ⟨hg.advance ha hst (hg.accumulator.mono ha.keeps) hvs rfl rfl, ?_⟩
      exact hl.runs_again hbody (fun _ => rfl) hf

theorem yields_applyContinuation (h : d.Live m) {r : Ref Continuation}
    (ha : d.Admits m.heap (.continuation r)) (hl : d.Lawful)
    (hf : d.strict = true → m.regs.s.isSome = true) :
    d.Yields d.Stays (m.applyContinuation r) := by
  have hg := h.governs
  obtain ⟨hb, hgen, k, hc⟩ := ha
  have hget : m.heap.get? r = some k := (Heap.get?_continuation_iff _ _ _).mpr ⟨hgen, hc⟩
  rcases hr : m.regs.r with _ | ⟨v, _ | ⟨w, rest⟩⟩
  · simp only [Machine.applyContinuation, hget, hr]
    exact ⟨trivial, h⟩
  · rw [Machine.applyContinuation_eq hget hr]
    have hstack : d.strict = true → k.stack.isSome = true := hg.stocks _ _ hb hc
    have hheld : (m.thrown k v).Held d.base := fun f hk =>
      (hg.rooted.linked.link _ _ hb hc f hk).mono (Heap.Keeps.refl _ _)
        (Nat.le_of_lt (Heap.cell?_lt hc))
    have hadv : (m.thrown k v).Advanced d.base m.heap :=
      ⟨hg.rooted.congr rfl rfl, hheld, Heap.Keeps.refl _ _⟩
    have hv : d.Admits m.heap v := hg.rib v (by simp [hr])
    exact yields_popFrame (hg.advance hadv hg.stocks hv hg.rib rfl rfl)
      (hl.runs_again h.control hf hstack) hstack
  · simp only [Machine.applyContinuation, hget, hr]
    exact ⟨trivial, h⟩

theorem yields_applyPrimitive (h : d.Live m) {id : PrimitiveId}
    (ha : d.Admits m.heap (.primitive id)) (hf : d.strict = true → m.regs.s.isSome = true) :
    d.Yields d.Stays (m.applyPrimitive id) := by
  have hg := h.governs
  have hid : id < m.primitives.size := hg.procedures ▸ ha
  obtain ⟨p, hp⟩ : ∃ p, m.primitive? id = some p := ⟨_, Array.getElem?_eq_getElem hid⟩
  obtain ⟨hok, herr⟩ := hg.trusts p (Array.mem_of_getElem? hp) m.regs.r
  simp only [Machine.applyPrimitive, hp]
  split
  · split
    · next e he => exact ⟨tolerates_of_reports (herr e he), h⟩
    · next v hv =>
      have hadm : d.Admits m.heap v := by
        rcases hok v hv with hplain | hmem
        · exact admits_of_plain hplain _
        · exact hg.rib v hmem
      exact yields_popFrame (hg.congr rfl rfl rfl hadm hg.rib rfl rfl) h.control hf
  · exact ⟨trivial, h⟩

theorem yields_apply (h : d.Live m) (hl : d.Lawful)
    (hf : d.strict = true → m.regs.s.isSome = true) : d.Yields d.Stays (m.apply d.code) := by
  have ha := h.governs.accumulator
  unfold Machine.apply
  split
  · next r hr => exact yields_applyClosure h (hr ▸ ha) hf hl
  · next r hr => exact yields_applyContinuation h (hr ▸ ha) hl hf
  · next id hr => exact yields_applyPrimitive h (hr ▸ ha) hf
  · exact ⟨trivial, h⟩

/-! ## Variables -/

/-- The search for a variable finds a slot that exists, or nothing. -/
theorem find_cases (hg : d.Governs m) (var : SymbolId) :
    (∃ (r : EnvRef) (h : EnvHeader) (i : Nat), m.heap.HoldsEnv d.base m.heap.used r ∧
        m.heap.cell? r.addr.offset = some (.environment h) ∧ i < h.length ∧
        Binding.find m.heap d.code m.regs.e var =
          .slot ⟨r.addr.offset + 1, h.length, m.heap.generation⟩ i) ∨
      Binding.find m.heap d.code m.regs.e var = .free := by
  have hl := hg.rooted.linked
  have hformals : ∀ o h, d.base ≤ o → m.heap.cell? o = some (.environment h) →
      ∃ names, d.code.formals? h.names = some names := by
    intro o h ho hc
    obtain ⟨names, hn, -⟩ := hg.stocks o _ ho hc
    exact ⟨names, hn⟩
  rcases Binding.search_settles hl hformals var (m.heap.used + 1) m.regs.e
    (fun r hr => ⟨hg.rooted.env r hr, Nat.lt_succ_of_lt (hg.rooted.env r hr).lt_bound⟩) with
    ⟨s, i, hf⟩ | hf
  · obtain ⟨r, h, names, hr, hc, hn, hi, rfl⟩ := Binding.search_slot hl _ _ hg.rooted.env hf
    obtain ⟨names', hn', hlen⟩ := hg.stocks _ _ hr.base_le hc
    rw [hn] at hn'
    cases hn'
    have hlt := List.idxOf?_eq_some_iff.mp hi
    exact .inl ⟨r, h, i, hr, hc, hlen ▸ hlt.1, hf⟩
  · exact .inr hf

/-- A variable has a value that the machine may carry, or it is unbound. -/
theorem lookup_cases (hg : d.Governs m) (var : SymbolId) :
    (∃ v, m.lookup d.code var = .ok v ∧ d.Admits m.heap v) ∨
      m.lookup d.code var = .error (.unboundVariable var) := by
  rcases find_cases hg var with ⟨r, h, i, hr, hc, hi, hf⟩ | hf
  · obtain ⟨v, hv, hread⟩ := hg.rooted.linked.slice_getElem hr.base_le hc hi
    simp only [Cell.tailLength] at hread
    refine .inl ⟨v, by simp [Machine.lookup, hf, hread], ?_⟩
    exact hg.stocks _ _ (by have := hr.base_le; omega) hv
  · cases hv : m.globals.get? var with
    | some v => exact .inl ⟨v, by simp [Machine.lookup, hf, hv], hg.globals _ _ (Globals.mem_of_get? hv)⟩
    | none => exact .inr (by simp [Machine.lookup, hf, hv])

theorem yields_assign (h : d.Live m) {next : NodeId} (hx : d.Reaches next m) (var : SymbolId) :
    d.Yields (d.Reaches next) (m.assign d.code var m.regs.a) := by
  have hg := h.governs
  rcases find_cases hg var with ⟨r, head, i, hr, hc, hi, hf⟩ | hf
  · have hset := hg.rooted.linked.setAt_tail hr.base_le hc hi m.regs.a
    have ha := Machine.advanced_assign hg.rooted hg.held d.code var m.regs.a
    simp only [Cell.tailLength] at hset
    simp only [Machine.assign, hf, hset] at ha ⊢
    exact ⟨hg.advance ha (hg.stocks.setValue hg.accumulator ha.keeps)
      (hg.accumulator.mono ha.keeps) (hg.rib_mono ha.keeps) rfl rfl, hx⟩
  · cases hset : m.globals.set? var m.regs.a with
    | none =>
      simp only [Machine.assign, hf, hset]
      exact ⟨trivial, h⟩
    | some g =>
      simp only [Machine.assign, hf, hset]
      refine ⟨hg.with_globals ?_, hx⟩
      intro id v hv
      rcases Globals.mem_set? hset hv with ⟨-, rfl⟩ | hv
      · exact hg.accumulator
      · exact hg.globals id v hv

/-! ## Steps and runs -/

theorem leaves_andGoto {next : NodeId} {r : Machine.Result Unit}
    (h : d.Yields (d.Reaches next) r) : d.Leaves (Machine.andGoto next r) := by
  obtain ⟨e | u, m'⟩ := r
  · exact h
  · obtain ⟨hg, hx⟩ := h
    exact ⟨hg.congr rfl rfl rfl hg.accumulator hg.rib rfl rfl, hx⟩

theorem leaves_andContinue {r : Machine.Result Unit} (h : d.Yields d.Stays r) :
    d.Leaves (Machine.andContinue r) := by
  obtain ⟨e | u, m'⟩ := r
  · exact h
  · exact ⟨h.1, h.2⟩

/-- Installing a control stack that the code names. Only a lax regime lets this happen. -/
theorem leaves_reinstate (h : d.Live m) (hl : d.Lawful) (hlax : d.strict = false)
    {stack : Option FrameRef} (hstack : ∀ f ∈ stack, m.heap.HoldsFrame d.base m.heap.used f) :
    d.Leaves (Machine.andContinue (m.reinstate stack none)) := by
  have hg := h.governs
  have ha : (m.reinstated stack).Advanced d.base m.heap :=
    ⟨hg.rooted.congr rfl rfl, hstack, Heap.Keeps.refl _ _⟩
  obtain ⟨n, -, hn⟩ := hg.rooted.linked.exists_counted hstack
  rw [Machine.reinstate_of_counted hn]
  refine leaves_andContinue (yields_popFrame
    (hg.advance ha hg.stocks hg.accumulator hg.rib rfl rfl) (hl.lax hlax _ _ _ h.control) ?_)
  simp [hlax]

theorem leaves_execute (h : d.Live m) (hl : d.Lawful) {n : Node}
    (hn : d.code.node? m.regs.x = some n) (ha : d.Allows m.regs.s.isSome n) :
    d.Leaves (m.execute d.code n) := by
  have hg := h.governs
  cases n with
  | halt => exact ⟨hg.accumulator, h⟩
  | refer var next =>
    rcases lookup_cases hg var with ⟨v, hv, hadm⟩ | hv
    · simp only [Machine.execute, hv]
      exact ⟨hg.congr rfl rfl rfl hadm hg.rib rfl rfl, ha⟩
    · simp only [Machine.execute, hv]
      exact ⟨trivial, h⟩
  | constant v next =>
    exact ⟨hg.congr rfl rfl rfl (admits_of_plain ha.1 _) hg.rib rfl rfl, ha.2⟩
  | close formals body next =>
    obtain ⟨hf, hb, hx⟩ := ha
    exact leaves_andGoto (yields_makeClosure h hf hb hx)
  | test onTrue onFalse =>
    refine ⟨hg.congr rfl rfl rfl hg.accumulator hg.rib rfl rfl, ?_⟩
    change d.runs m.regs.s.isSome (if m.regs.a.isTruthy then onTrue else onFalse)
    split
    · exact ha.1
    · exact ha.2
  | assign var next => exact leaves_andGoto (yields_assign h ha var)
  | conti next => exact leaves_andGoto (yields_capture h ha.1 ha.2)
  | nuate stack var =>
    have hstack : ∀ f ∈ stack, m.heap.HoldsFrame d.base m.heap.used f := by
      rintro f ⟨⟩
      exact hg.tops _ f var hn
    cases var with
    | none => exact leaves_reinstate h hl ha hstack
    | some var =>
      rcases lookup_cases hg var with ⟨v, hv, hadm⟩ | hv
      · simp only [Machine.execute, hv]
        have hset : d.Live (m.setAccumulator v) :=
          ⟨hg.congr rfl rfl rfl hadm hg.rib rfl rfl, h.control⟩
        exact leaves_reinstate hset hl ha hstack
      · simp only [Machine.execute, hv]
        exact ⟨trivial, h⟩
  | frame returnTo next => exact leaves_andGoto (yields_pushFrame h ha.1 ha.2)
  | argument next =>
    refine ⟨hg.congr rfl rfl rfl hg.accumulator ?_ rfl rfl, ha⟩
    intro v hv
    have hv : v ∈ m.regs.r ∨ v = m.regs.a := by
      simpa [Registers.r, Registers.collect, or_comm] using hv
    rcases hv with hv | rfl
    · exact hg.rib v hv
    · exact hg.accumulator
  | apply => exact leaves_andContinue (yields_apply h hl ha)
  | ret => exact leaves_andContinue (yields_popFrame hg h.control ha)

/-- A step of a live machine leaves it live, finds nothing malformed, and answers only with values
that the machine may carry. -/
theorem step_live (hl : d.Lawful) (h : d.Live m) : d.Leaves (m.step d.code) := by
  unfold Machine.step
  split
  · exact ⟨trivial, h⟩
  · obtain ⟨n, hn, ha⟩ := hl.node _ _ h.control
    have hg := h.governs
    have htick : d.Live m.tick :=
      ⟨hg.congr rfl rfl rfl hg.accumulator hg.rib rfl rfl, h.control⟩
    rw [hn]
    exact leaves_execute htick hl hn ha

/-- A run of a live machine. -/
theorem proceed_live (hl : d.Lawful) (expired : Nat → Bool) (fuel : Nat) (h : d.Live m) :
    d.Live (Machine.proceed d.code expired fuel m).2 ∧
      (∀ v, (Machine.proceed d.code expired fuel m).1 = some (.ok v) →
        d.Admits (Machine.proceed d.code expired fuel m).2.heap v) ∧
      ∀ e, (Machine.proceed d.code expired fuel m).1 = some (.error e) →
        d.Tolerates e ∨ ∃ n, e = .deadlineExceeded n ∧ expired n = true := by
  induction fuel generalizing m with
  | zero => exact ⟨h, by simp [Machine.proceed], by simp [Machine.proceed]⟩
  | succ fuel ih =>
    unfold Machine.proceed
    have hstep := step_live hl h
    split
    · next hexp =>
      refine ⟨h, by simp, ?_⟩
      rintro e ⟨⟩
      exact .inr ⟨_, rfl, by simpa using (Bool.and_eq_true_iff.mp hexp).2⟩
    · split
      · next heq =>
        rw [heq] at hstep
        refine ⟨hstep.2, by simp, ?_⟩
        rintro e ⟨⟩
        exact .inl hstep.1
      · next heq =>
        rw [heq] at hstep
        refine ⟨hstep.2, ?_, by simp⟩
        rintro v ⟨⟩
        exact hstep.1
      · next heq =>
        rw [heq] at hstep
        exact ih hstep

end Regime

end ClosureMachine
