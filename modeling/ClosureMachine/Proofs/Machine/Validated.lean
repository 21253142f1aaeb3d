import Mathlib.Tactic.IntervalCases
import ClosureMachine.Proofs.Code.Validity
import ClosureMachine.Proofs.Machine.Regime
import ClosureMachine.Proofs.Machine.Scoped

/-!
Validation is enough for execution. A host plays with a machine and a code that validates: it
starts, steps and runs, also after failures, looks at registers and globals, binds globals to what
it has seen, takes the control stacks of continuations it has seen, and extends the code by
instructions that may install those stacks. A step changes no record but the values of an
environment (`Machine.step_keeps`), so what the host has seen stays readable, and no step of any
such play finds anything malformed (`validated_code_never_malformed`); all that can go fatally
wrong is a return without a frame.
-/

namespace ClosureMachine

/-- A procedure that returns, answers with plain values or its arguments, and never reports that
something is malformed. -/
def Primitive.Modest (n : Nat) (p : Primitive) : Prop :=
  p.Returns ∧ ∀ args, (∀ v, p.run args = .ok v → v.Plain n ∨ v ∈ args) ∧
    ∀ cause, p.run args ≠ .error (.malformed cause)

/-- Code that validates, with plain constants, and that installs no stacks but those whose top
frame is in `tops`. -/
structure Code.Fit (c : Code) (procedures : Nat) (tops : List FrameRef) : Prop where
  valid : c.defect? = none
  constants : ∀ id v next, c.node? id = some (.constant v next) → v.Plain procedures
  tops : ∀ id f var, c.node? id = some (.nuate (some f) var) → f ∈ tops

/-- Control may be anywhere in the code. -/
def Regime.lax (code : Code) (base procedures : Nat) : Regime where
  code := code
  base := base
  procedures := procedures
  reports e := e ≠ .endless ∧ ∀ cause, e ≠ .malformed cause
  strict := false
  runs _ id := id < code.size

theorem Code.Fit.lawful {c : Code} {n : Nat} {tops : List FrameRef} (h : c.Fit n tops)
    (base : Nat) : (Regime.lax c base n).Lawful where
  lax _ _ _ _ hid := hid
  node framed id hid := by
    obtain ⟨node, hn⟩ := Code.exists_node_of_lt hid
    obtain ⟨htargets, hformals⟩ := (Code.defect?_eq_none_iff c).mp h.valid id node hn
    refine ⟨node, hn, ?_⟩
    cases node with
    | halt => trivial
    | constant v next => exact ⟨h.constants _ _ _ hn, htargets _ (by simp [Node.successors])⟩
    | close f body next =>
      obtain ⟨names, hnames, -⟩ := hformals f body next rfl
      exact ⟨⟨names, hnames⟩, htargets _ (by simp [Node.successors]),
        htargets _ (by simp [Node.successors])⟩
    | test onTrue onFalse =>
      exact ⟨htargets _ (by simp [Node.successors]), htargets _ (by simp [Node.successors])⟩
    | frame returnTo next =>
      exact ⟨htargets _ (by simp [Node.successors]), htargets _ (by simp [Node.successors])⟩
    | conti next => exact ⟨nofun, htargets _ (by simp [Node.successors])⟩
    | nuate stack var => rfl
    | apply => exact nofun
    | ret => exact nofun
    | _ => exact htargets _ (by simp [Node.successors])

/-! ## Records that stay -/

namespace Machine

variable {base : Nat} {m : Machine} {code : Code}

section Keeps

variable (h : m.Rooted base)
include h

theorem keeps_pushFrame (returnTo : NodeId) :
    m.heap.Keeps base (m.pushFrame returnTo).2.heap := by
  rw [pushFrame_eq h.linked.capacity_lt]
  split
  · exact Heap.Keeps.refl _ _
  · exact Heap.Keeps.extend _ _ _

theorem keeps_applyClosure (ref : Ref Closure) :
    m.heap.Keeps base (m.applyClosure code ref).2.heap := by
  cases hc : m.heap.get? ref with
  | none =>
    simp only [applyClosure, hc]
    exact Heap.Keeps.refl _ _
  | some c =>
    cases hn : code.formals? c.formals with
    | none =>
      simp only [applyClosure, hc, hn]
      exact Heap.Keeps.refl _ _
    | some names =>
      rw [applyClosure_eq h.linked.capacity_lt hc hn]
      split
      · exact Heap.Keeps.refl _ _
      · split
        · exact Heap.Keeps.refl _ _
        · exact Heap.Keeps.extend _ _ _

end Keeps

theorem heap_applyContinuation (m : Machine) (ref : Ref Continuation) :
    (m.applyContinuation ref).2.heap = m.heap := by
  unfold applyContinuation
  split
  · rfl
  · split
    · exact heap_popFrame _
    · rfl

theorem heap_applyPrimitive (m : Machine) (id : PrimitiveId) :
    (m.applyPrimitive id).2.heap = m.heap := by
  unfold applyPrimitive
  split
  · rfl
  · split
    · split
      · rfl
      · exact heap_popFrame _
    · rfl

theorem heap_andGoto (next : NodeId) (r : Result Unit) : (andGoto next r).2.heap = r.2.heap := by
  obtain ⟨_ | _, _⟩ := r <;> rfl

theorem heap_andContinue (r : Result Unit) : (andContinue r).2.heap = r.2.heap := by
  obtain ⟨_ | _, _⟩ := r <;> rfl

theorem execute_keeps (h : m.Rooted base) (hs : m.Held base) (n : Node) :
    m.heap.Keeps base (m.execute code n).2.heap := by
  cases n with
  | refer var next =>
    simp only [execute]
    split <;> exact Heap.Keeps.refl _ _
  | close formals body next =>
    simp only [execute, heap_andGoto, makeClosure_eq]
    split
    · exact Heap.Keeps.refl _ _
    · exact Heap.Keeps.extend _ _ _
  | assign var next =>
    simp only [execute, heap_andGoto]
    exact (advanced_assign h hs code var m.regs.a).keeps
  | conti next =>
    simp only [execute, heap_andGoto, capture_eq]
    split
    · exact Heap.Keeps.refl _ _
    · exact Heap.Keeps.extend _ _ _
  | nuate stack var =>
    cases var with
    | none =>
      simp only [execute, heap_andContinue, heap_reinstate]
      exact Heap.Keeps.refl _ _
    | some var =>
      simp only [execute]
      split
      · exact Heap.Keeps.refl _ _
      · rw [heap_andContinue, heap_reinstate]
        exact Heap.Keeps.refl _ _
  | frame returnTo next =>
    simp only [execute, heap_andGoto]
    exact keeps_pushFrame h returnTo
  | apply =>
    simp only [execute, heap_andContinue]
    unfold apply
    split
    · exact keeps_applyClosure h _
    · rw [heap_applyContinuation]
      exact Heap.Keeps.refl _ _
    · rw [heap_applyPrimitive]
      exact Heap.Keeps.refl _ _
    · exact Heap.Keeps.refl _ _
  | ret =>
    simp only [execute, heap_andContinue, heap_popFrame]
    exact Heap.Keeps.refl _ _
  | _ => exact Heap.Keeps.refl _ _

/-- A step changes no record but the values of an environment. -/
theorem step_keeps (code : Code) (h : m.Rooted base) (hs : m.Held base) :
    m.heap.Keeps base (m.step code).2.heap := by
  unfold step
  split
  · exact Heap.Keeps.refl _ _
  · split
    · exact Heap.Keeps.refl _ _
    · exact execute_keeps (m := m.tick) (h.congr rfl rfl) (hs.congr rfl rfl) _

end Machine

theorem Regime.proceed_keeps {d : Regime} (hl : d.Lawful) (expired : Nat → Bool) (fuel : Nat)
    {m : Machine} (h : d.Live m) :
    m.heap.Keeps d.base (Machine.proceed d.code expired fuel m).2.heap := by
  induction fuel generalizing m with
  | zero => exact Heap.Keeps.refl _ _
  | succ fuel ih =>
    have hstep := (Regime.step_live hl h).live
    have hkeeps := Machine.step_keeps d.code h.governs.rooted h.governs.held
    unfold Machine.proceed
    split
    · exact Heap.Keeps.refl _ _
    · split
      · next heq => rwa [heq] at hkeeps
      · next heq => rwa [heq] at hkeeps
      · next heq =>
        rw [heq] at hstep hkeeps
        exact hkeeps.trans (ih hstep)

/-! ## Plays -/

/-- What the host can read off a machine. -/
def Machine.Shows (m : Machine) (v : Value) : Prop :=
  v = m.regs.a ∨ v ∈ m.regs.r ∨ ∃ id, (id, v) ∈ m.globals.bindings

/-- A machine, its code, and what the host has got hold of. -/
structure Play where
  machine : Machine
  code : Code
  values : List Value
  /-- Top frames of control stacks. -/
  tops : List FrameRef

namespace Play

/-- The machine has gone on, and perhaps answered with a value. -/
def hear (p : Play) (answer : Option Value) (m : Machine) : Play :=
  { p with machine := m, values := answer.toList ++ p.values }

/-- The value that a step answers with. -/
def halted? : Except MachineError Progress → Option Value
  | .ok (.halted v) => some v
  | _ => none

/-- One act of the host. -/
inductive Move : Play → Play → Prop
  | start (p : Play) {entry : NodeId} : entry < p.code.size →
    Move p (p.hear none (p.machine.start entry))
  | step (p : Play) : Move p (p.hear (halted? (p.machine.step p.code).1) (p.machine.step p.code).2)
  | run (p : Play) {entry : NodeId} (expired : Nat → Bool) (fuel : Nat) : entry < p.code.size →
    Move p (p.hear ((p.machine.runUntil p.code entry expired fuel).1.bind Except.toOption)
      (p.machine.runUntil p.code entry expired fuel).2)
  | grow (p : Play) {c : Code} : p.code.Grows c → c.Fit p.machine.primitives.size p.tops →
    Move p { p with code := c }
  | look (p : Play) {v : Value} : p.machine.Shows v → Move p { p with values := v :: p.values }
  | bind (p : Play) (id : SymbolId) {v : Value} :
    v.Plain p.machine.primitives.size ∨ v ∈ p.values →
    Move p (p.hear none { p.machine with globals := p.machine.globals.define id v })
  | take (p : Play) {v : Value} {f : FrameRef} : v ∈ p.values →
    p.machine.continuationStack? v = some (some f) → Move p { p with tops := f :: p.tops }
  | limit (p : Play) (limit : Option Nat) : Move p (p.hear none { p.machine with limit })

abbrev Later : Play → Play → Prop := Relation.ReflTransGen Move

/-- The invariant of a play. -/
structure Sound (base n : Nat) (p : Play) : Prop where
  fit : p.code.Fit n p.tops
  live : (Regime.lax p.code base n).Live p.machine
  values : ∀ v ∈ p.values, (Regime.lax p.code base n).Admits p.machine.heap v
  tops : ∀ f ∈ p.tops, p.machine.heap.HoldsFrame base p.machine.heap.used f

variable {base n : Nat} {p q : Play}

theorem Sound.hear (h : p.Sound base n) {m : Machine} {answer : Option Value}
    (hk : p.machine.heap.Keeps base m.heap) (hlive : (Regime.lax p.code base n).Live m)
    (hanswer : ∀ v ∈ answer, (Regime.lax p.code base n).Admits m.heap v) :
    Sound base n (p.hear answer m) := by
  refine ⟨h.fit, hlive, ?_, fun f hf => (h.tops f hf).mono hk hk.used_le⟩
  intro v hv
  rcases List.mem_append.mp hv with hv | hv
  · exact hanswer v (Option.mem_toList.mp hv)
  · exact (h.values v hv).mono hk

theorem Sound.start (h : p.Sound base n) {entry : NodeId} (he : entry < p.code.size) :
    Sound base n (p.hear none (p.machine.start entry)) :=
  h.hear (.refl _ _) ⟨h.live.governs.start entry, he⟩ nofun

private theorem eq_of_halted? {r : Except MachineError Progress} {v : Value}
    (h : halted? r = some v) : r = .ok (.halted v) := by
  obtain e | (_ | w) := r
  · cases h
  · cases h
  · cases h; rfl

private theorem eq_of_toOption {r : Option (Except MachineError Value)} {v : Value}
    (h : r.bind Except.toOption = some v) : r = some (.ok v) := by
  obtain _ | (e | w) := r
  · cases h
  · cases h
  · cases h; rfl

theorem Sound.step (h : p.Sound base n) :
    Sound base n (p.hear (halted? (p.machine.step p.code).1) (p.machine.step p.code).2) := by
  have hl := Regime.step_live (h.fit.lawful base) h.live
  have hk := Machine.step_keeps p.code h.live.governs.rooted h.live.governs.held
  exact h.hear hk hl.live fun v hv => hl.halted (eq_of_halted? hv)

theorem Sound.run (h : p.Sound base n) {entry : NodeId} (he : entry < p.code.size)
    (expired : Nat → Bool) (fuel : Nat) :
    Sound base n (p.hear ((p.machine.runUntil p.code entry expired fuel).1.bind Except.toOption)
      (p.machine.runUntil p.code entry expired fuel).2) := by
  obtain ⟨hlive, hok, -⟩ :=
    Regime.proceed_live (h.fit.lawful base) expired fuel (h.start he).live
  have hk := Regime.proceed_keeps (h.fit.lawful base) expired fuel (h.start he).live
  exact h.hear hk hlive fun v hv => hok v (eq_of_toOption hv)

theorem Sound.grow (h : p.Sound base n) {c : Code} (hc : p.code.Grows c)
    (hfit : c.Fit n p.tops) : Sound base n { p with code := c } := by
  have hruns : ∀ framed id, (Regime.lax p.code base n).runs framed id → id < c.size :=
    fun _ _ hid => Nat.lt_of_lt_of_le hid hc.size_le
  have hgoverns := h.live.governs.grow hc hruns
    fun id f var hn => h.tops f (hfit.tops id f var hn)
  exact ⟨hfit, ⟨hgoverns, hruns _ _ h.live.control⟩, h.values, h.tops⟩

theorem Sound.admits_shown (h : p.Sound base n) {v : Value} (hv : p.machine.Shows v) :
    (Regime.lax p.code base n).Admits p.machine.heap v := by
  have hg := h.live.governs
  rcases hv with rfl | hv | ⟨id, hv⟩
  · exact hg.accumulator
  · exact hg.rib v hv
  · exact hg.globals id v hv

theorem Sound.bind (h : p.Sound base n) (id : SymbolId) {v : Value}
    (hv : v.Plain n ∨ v ∈ p.values) :
    Sound base n (p.hear none { p.machine with globals := p.machine.globals.define id v }) := by
  have hadm : (Regime.lax p.code base n).Admits p.machine.heap v := by
    rcases hv with hv | hv
    · exact Regime.admits_of_plain hv _
    · exact h.values v hv
  refine h.hear (.refl _ _) ⟨h.live.governs.with_globals ?_, h.live.control⟩ nofun
  intro id' w hw
  rcases Globals.mem_define hw with ⟨-, rfl⟩ | hw
  · exact hadm
  · exact h.live.governs.globals id' w hw

/-- The stack of a continuation that the host knows consists of stored frames. -/
theorem Sound.take (h : p.Sound base n) {v : Value} {f : FrameRef} (hv : v ∈ p.values)
    (hf : p.machine.continuationStack? v = some (some f)) :
    Sound base n { p with tops := f :: p.tops } := by
  have hadm := h.values v hv
  have hheld : p.machine.heap.HoldsFrame base p.machine.heap.used f := by
    cases v with
    | continuation r =>
      obtain ⟨hb, -, k, hk⟩ := hadm
      obtain ⟨k', hget, hstack⟩ := Option.map_eq_some_iff.mp hf
      obtain ⟨-, hk'⟩ := (Heap.get?_continuation_iff _ _ _).mp hget
      have hlink := h.live.governs.rooted.linked.link _ _ hb hk'
      exact (hlink f hstack).mono (Heap.Keeps.refl _ _) (Nat.le_of_lt (Heap.cell?_lt hk'))
    | _ => cases hf
  refine ⟨{ h.fit with tops := ?_ }, h.live, h.values, ?_⟩
  · exact fun id g var hn => List.mem_cons_of_mem _ (h.fit.tops id g var hn)
  · rintro g (_ | ⟨_, hg⟩)
    · exact hheld
    · exact h.tops g hg

theorem Move.sound (hm : Move p q) (h : p.Sound base n) : q.Sound base n := by
  have hn : p.machine.primitives.size = n := h.live.governs.procedures
  cases hm with
  | start he => exact h.start he
  | step => exact h.step
  | run expired fuel he => exact h.run he expired fuel
  | grow hc hfit => exact h.grow hc (hn ▸ hfit)
  | look hv =>
    refine { h with values := ?_ }
    rintro w (_ | ⟨_, hw⟩)
    · exact h.admits_shown hv
    · exact h.values w hw
  | bind id hv => exact h.bind id (hn ▸ hv)
  | take hv hf => exact h.take hv hf
  | limit l =>
    have hg := h.live.governs
    exact h.hear (.refl _ _)
      ⟨hg.congr rfl rfl rfl hg.accumulator hg.rib rfl rfl, h.live.control⟩ nofun

theorem Later.sound (hm : Later p q) (h : p.Sound base n) : q.Sound base n := by
  induction hm with
  | refl => exact h
  | tail _ hm ih => exact hm.sound ih

/-- A machine without boxed globals begins a play with fit code. What was stored before does not
matter: nothing leads to it. -/
theorem Sound.begin {m : Machine} {code : Code} (hm : m.Reachable)
    (hglobals : ∀ id v, (id, v) ∈ m.globals.bindings → v.Plain m.primitives.size)
    (hprims : ∀ p ∈ m.primitives, p.Modest m.primitives.size)
    (hcode : code.Fit m.primitives.size []) {entry : NodeId} (he : entry < code.size) :
    Sound m.heap.used m.primitives.size ⟨m.start entry, code, [], []⟩ := by
  have hscoped := hm.scoped
  refine ⟨hcode, ⟨?_, he⟩, nofun, nofun⟩
  refine .of_cleared hscoped.used_le hscoped.capacity_lt rfl rfl hglobals rfl ?_
    fun id f var hn => nomatch hcode.tops id f var hn
  intro p hp args
  obtain ⟨hret, hmodest⟩ := hprims p hp
  obtain ⟨hok, herr⟩ := hmodest args
  refine ⟨hok, fun e hrun => ⟨?_, fun cause hc => herr cause (hc ▸ hrun)⟩⟩
  rintro rfl
  exact hret args hrun

end Play

/-- Nothing is malformed, and the only fatal error is a return without a frame. -/
def MachineError.Clean (e : MachineError) : Prop :=
  (∀ cause, e ≠ .malformed cause) ∧ (e.isFatal = true → ∃ id, e = .stackUnderflow id)

theorem Regime.clean_of_tolerates {code : Code} {base n : Nat} {e : MachineError}
    (h : (Regime.lax code base n).Tolerates e) : e.Clean := by
  cases e with
  | malformed cause => exact absurd rfl (h.2 cause)
  | endless => exact absurd rfl h.1
  | stackUnderflow id => exact ⟨nofun, fun _ => ⟨id, rfl⟩⟩
  | _ => exact ⟨nofun, nofun⟩

/-- Whatever the host does in the course of a play with fit code, neither the next step nor a run
from any entry finds anything malformed. -/
theorem validated_code_never_malformed {m : Machine} {code : Code} (hm : m.Reachable)
    (hglobals : ∀ id v, (id, v) ∈ m.globals.bindings → v.Plain m.primitives.size)
    (hprims : ∀ p ∈ m.primitives, p.Modest m.primitives.size)
    (hcode : code.Fit m.primitives.size []) {entry : NodeId} (he : entry < code.size) {p : Play}
    (hp : Play.Later ⟨m.start entry, code, [], []⟩ p) :
    (∀ e, (p.machine.step p.code).1 = .error e → e.Clean) ∧
      ∀ entry' expired fuel e, entry' < p.code.size →
        (p.machine.runUntil p.code entry' expired fuel).1 = some (.error e) → e.Clean := by
  have hs := hp.sound (.begin hm hglobals hprims hcode he)
  have hl := hs.fit.lawful m.heap.used
  refine ⟨fun e hstep => Regime.clean_of_tolerates ((Regime.step_live hl hs.live).error hstep), ?_⟩
  intro entry' expired fuel e he' hrun
  obtain ⟨-, -, herr⟩ := Regime.proceed_live hl expired fuel (hs.start he').live
  rcases herr e hrun with h | ⟨n, rfl, -⟩
  · exact Regime.clean_of_tolerates h
  · exact ⟨nofun, nofun⟩

/-- Answer with a continuation that holds one frame. -/
def captureCode : Code := { nodes := #[.halt, .ret, .conti 1, .frame 0 2] }

/-- The same, followed by an instruction that installs the frame again. -/
def reentryCode : Code :=
  { nodes := #[.halt, .ret, .conti 1, .frame 0 2, .nuate (some ⟨⟨0, 1⟩⟩) none] }

def captureMachine : Machine := { heap := ⟨16, #[], 0, 1⟩ }

theorem captureCode_fit : captureCode.Fit 0 [] where
  valid := by decide
  constants id v next h := by
    have hid : id < 4 := Code.node?_lt h
    interval_cases id <;> cases h
  tops id f var h := by
    have hid : id < 4 := Code.node?_lt h
    interval_cases id <;> cases h

theorem reentryCode_fit : reentryCode.Fit 0 [⟨⟨0, 1⟩⟩] where
  valid := by decide
  constants id v next h := by
    have hid : id < 5 := Code.node?_lt h
    interval_cases id <;> cases h
  tops id f var h := by
    have hid : id < 5 := Code.node?_lt h
    interval_cases id <;> cases h
    exact List.mem_singleton_self _

def captureBegun : Play := ⟨captureMachine.start 3, captureCode, [], []⟩

/-- The continuation has been answered. -/
def captureDone : Play :=
  captureBegun.hear (some (.continuation ⟨⟨1, 1⟩⟩))
    (captureMachine.runUntil captureCode 3 (fun _ => false) 10).2

/-- The continuation is answered, its stack taken, and the frame entered again. -/
theorem validated_code_never_malformed_reentry :
    ∃ p, Play.Later captureBegun p ∧ p.code = reentryCode ∧
      (p.machine.step p.code).1 = .ok .running ∧
      ∀ e, (p.machine.runUntil p.code 4 (fun _ => false) 10).1 = some (.error e) → e.Clean := by
  have hnew : captureMachine.Reachable :=
    @Machine.Reachable.create { arena := .ofBlocks 16 } {} _ _ rfl
  have hrun : Play.Move captureBegun captureDone := .run _ (fun _ => false) 10 (by decide)
  have htake : Play.Move captureDone { captureDone with tops := [⟨⟨0, 1⟩⟩] } :=
    .take _ (List.mem_singleton_self _) rfl
  have hgrow : Play.Move { captureDone with tops := [⟨⟨0, 1⟩⟩] }
      { captureDone with tops := [⟨⟨0, 1⟩⟩], code := reentryCode } :=
    .grow _ ⟨by decide, by decide⟩ reentryCode_fit
  have hstart := Play.Move.start { captureDone with tops := [⟨⟨0, 1⟩⟩], code := reentryCode }
    (show 4 < 5 by decide)
  have hp := (((Relation.ReflTransGen.single hrun).tail htake).tail hgrow).tail hstart
  obtain ⟨-, hruns⟩ := validated_code_never_malformed hnew nofun nofun captureCode_fit
    (show 3 < 4 by decide) hp
  exact ⟨_, hp, rfl, rfl, fun e => hruns 4 _ 10 e (by decide)⟩

end ClosureMachine
