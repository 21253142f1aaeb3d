import Mathlib.Algebra.GroupWithZero.Nat
import ClosureMachine.Proofs.Machine.Scoped
import ClosureMachine.Proofs.Machine.Shift

/-!
What a run costs. Four instructions store something, each a record of a known size: making a closure
and capturing the control stack take one block, a frame one and another for each saved argument, and
entering a closure one and another for each parameter (`Machine.chargeOf`). An instruction passes
its other checks first (`Machine.Admits`); then it takes exactly its blocks, or reports that there
are fewer and takes none (`step_takes`). No other step takes any (`step_free`, `step_refused`).

So the blocks in use grow by what the steps of a run have stored (`Course.used_eq`), and that is all
that `arena_cost_is_accounted` needs.
-/

namespace ClosureMachine

/-- What an instruction stores. -/
inductive Charge where
  | closure
  | continuation
  /-- A call frame with that many saved arguments. -/
  | frame (n : Nat)
  /-- An environment frame that binds that many arguments. -/
  | call (n : Nat)
  deriving DecidableEq, Repr

namespace Charge

def blocks : Charge → Nat
  | closure | continuation => 1
  | frame n | call n => n + 1

/-- The number of arguments that are stored along. -/
def rib? : Charge → Option Nat
  | closure | continuation => none
  | frame n | call n => some n

/-- Closures and continuations take one block each, frames and calls one more than arguments. -/
theorem sum_blocks (cs : List Charge) :
    (cs.map blocks).sum =
      cs.count closure + cs.count continuation + ((cs.filterMap rib?).map (· + 1)).sum := by
  induction cs with
  | nil => rfl
  | cons c cs ih =>
    rw [List.map_cons, List.sum_cons, ih]
    cases c <;> simp [List.filterMap_cons, blocks, rib?] <;> omega

end Charge

namespace Machine

variable {m m' : Machine} {code : Code}

/-- What an instruction is to store. -/
def chargeOf (m : Machine) : Node → Option Charge
  | .close .. => some .closure
  | .conti _ => some .continuation
  | .frame .. => some (.frame m.regs.r.length)
  | .apply =>
    match m.regs.a with
    | .closure _ => some (.call m.regs.r.length)
    | _ => none
  | _ => none

/-- What the next instruction is to store. -/
def charge? (m : Machine) (code : Code) : Option Charge :=
  (code.node? m.regs.x).bind m.chargeOf

/-- The blocks that the next instruction is to take. -/
def cost (m : Machine) (code : Code) : Nat := ((m.charge? code).map Charge.blocks).getD 0

/-- A closure that can be entered with these arguments, if there is room. -/
def Enterable (m : Machine) (code : Code) (ref : Ref Closure) : Prop :=
  ∃ c names, m.heap.get? ref = some c ∧ code.formals? c.formals = some names ∧
    names.length = m.regs.r.length

/-- The next instruction passes the checks that come before it takes blocks. -/
structure Admits (m : Machine) (code : Code) : Prop where
  limit : m.exhaustedLimit? = none
  node : ∃ n, code.node? m.regs.x = some n
  closure : ∀ ref, code.node? m.regs.x = some .apply → m.regs.a = .closure ref →
    m.Enterable code ref

/-- The next instruction applies a host procedure. What that reports is its own affair. -/
def AppliesHost (m : Machine) (code : Code) : Prop :=
  code.node? m.regs.x = some .apply ∧ ∃ id, m.regs.a = .primitive id

/-! ## Actions -/

section Actions

variable {α : Type} {r : Result Unit} {n : Nat}

/-- `n` blocks are taken, or there are fewer and that is reported. -/
structure Takes (m : Machine) (n : Nat) (answer : α) (r : Result α) : Prop where
  short : m.heap.remaining < n → (∃ e, r.1 = .error (.outOfMemory e)) ∧ r.2.heap = m.heap
  fits : n ≤ m.heap.remaining → r.1 = .ok answer ∧ r.2.heap.used = m.heap.used + n

/-- No blocks are taken, and no lack of them is reported. -/
structure Spares (m : Machine) (r : Result α) : Prop where
  used : r.2.heap.used = m.heap.used
  noLack : ∀ e, r.1 ≠ .error (.outOfMemory e)

theorem Spares.of_ok {r : Result α} {x : α} (h : r.1 = .ok x)
    (hused : r.2.heap.used = m.heap.used) : m.Spares r :=
  ⟨hused, fun e he => by cases h.symm.trans he⟩

theorem Spares.of_error {r : Result α} {e : MachineError} (h : r.1 = .error e)
    (hused : r.2.heap.used = m.heap.used) (he : ∀ a, e ≠ .outOfMemory a) : m.Spares r :=
  ⟨hused, fun a ha => he a (Except.error.inj (h.symm.trans ha))⟩

theorem takes_ite {e : ArenaError} (h : m'.heap.used = m.heap.used + n) :
    m.Takes n () (if m.heap.remaining < n then (.error (.outOfMemory e), m) else (.ok (), m')) := by
  constructor
  · intro hshort
    rw [if_pos hshort]
    exact ⟨⟨e, rfl⟩, rfl⟩
  · intro hfits
    rw [if_neg (Nat.not_lt.mpr hfits)]
    exact ⟨rfl, h⟩

/-- The step `r'` succeeds or fails as the action `r` does, with the same heap. -/
structure Echoes (r : Result Unit) (r' : Result Progress) : Prop where
  ok : r.1 = .ok () → r'.1 = .ok .running
  error : ∀ e, r.1 = .error e ↔ r'.1 = .error e
  heap : r'.2.heap = r.2.heap

theorem echoes_andGoto (next : NodeId) (r : Result Unit) : Echoes r (andGoto next r) := by
  obtain ⟨e | u, m'⟩ := r
  · exact ⟨nofun, fun a => by simp [andGoto], rfl⟩
  · exact ⟨fun _ => rfl, fun a => by simp [andGoto], rfl⟩

theorem echoes_andContinue (r : Result Unit) : Echoes r (andContinue r) := by
  obtain ⟨e | u, m'⟩ := r
  · exact ⟨nofun, fun a => by simp [andContinue], rfl⟩
  · exact ⟨fun _ => rfl, fun a => by simp [andContinue], rfl⟩

theorem Takes.echo {r' : Result Progress} (h : m.Takes n () r) (he : Echoes r r') :
    m.Takes n .running r' := by
  constructor
  · intro hshort
    obtain ⟨⟨e, herror⟩, hheap⟩ := h.short hshort
    exact ⟨⟨e, (he.error _).mp herror⟩, he.heap.trans hheap⟩
  · intro hfits
    obtain ⟨hok, hused⟩ := h.fits hfits
    exact ⟨he.ok hok, (congrArg Arena.used he.heap).trans hused⟩

theorem Spares.echo {r' : Result Progress} (h : m.Spares r) (he : Echoes r r') : m.Spares r' :=
  ⟨(congrArg Arena.used he.heap).trans h.used, fun e herror => h.noLack e ((he.error _).mpr herror)⟩

theorem spares_popFrame (m : Machine) : m.Spares m.popFrame := by
  unfold popFrame
  repeat' split
  all_goals exact ⟨rfl, nofun⟩

theorem spares_assign (m : Machine) (code : Code) (var : SymbolId) (v : Value) :
    m.Spares (m.assign code var v) := by
  unfold assign
  split
  · next s i _ =>
    rcases Heap.setAt_eq m.heap s i v with ⟨hset, -⟩ | ⟨⟨e, hset⟩, -⟩
    · rw [hset]
      exact ⟨Heap.setValue_used _ _ _, nofun⟩
    · rw [hset]
      exact ⟨rfl, nofun⟩
  · split <;> exact ⟨rfl, nofun⟩
  · exact ⟨rfl, nofun⟩
  · exact ⟨rfl, nofun⟩

theorem spares_reinstate (m : Machine) (stack : Option FrameRef) :
    m.Spares (m.reinstate stack none) := by
  rcases m.reinstate_none_cases stack with heq | heq
  · rw [heq]
    have hpop := (m.reinstated stack).spares_popFrame
    exact ⟨hpop.used, hpop.noLack⟩
  · rw [heq]
    exact ⟨rfl, nofun⟩

theorem lookup_ne_outOfMemory (m : Machine) (code : Code) (var : SymbolId) (e : ArenaError) :
    m.lookup code var ≠ .error (.outOfMemory e) := by
  unfold lookup
  repeat' split
  all_goals exact nofun

theorem spares_applyContinuation (m : Machine) (ref : Ref Continuation) :
    m.Spares (m.applyContinuation ref) := by
  unfold applyContinuation
  split
  · exact ⟨rfl, nofun⟩
  · next k _ =>
    split
    · next v _ => exact ⟨(m.thrown k v).spares_popFrame.used, (m.thrown k v).spares_popFrame.noLack⟩
    · exact ⟨rfl, nofun⟩

/-- A host procedure takes no blocks, whatever it reports. -/
theorem used_applyPrimitive (m : Machine) (id : PrimitiveId) :
    (m.applyPrimitive id).2.heap.used = m.heap.used := by
  unfold applyPrimitive
  split
  · rfl
  · split
    · split
      · rfl
      · next v _ => exact (m.setAccumulator v).spares_popFrame.used
    · rfl

/-- A closure that cannot be entered is refused before anything is stored. -/
theorem applyClosure_refused {ref : Ref Closure} (h : ¬ m.Enterable code ref) :
    m.Spares (m.applyClosure code ref) ∧ ∃ e, (m.applyClosure code ref).1 = .error e := by
  unfold applyClosure
  split
  · exact ⟨⟨rfl, nofun⟩, _, rfl⟩
  · next c hc =>
    split
    · exact ⟨⟨rfl, nofun⟩, _, rfl⟩
    · next names hnames =>
      split
      · exact ⟨⟨rfl, nofun⟩, _, rfl⟩
      · next harity => exact absurd ⟨c, names, hc, hnames, Decidable.not_not.mp harity⟩ h

theorem used_store (heap : Heap) (c : Cell) (vs : List Value) :
    (heap.extend (c :: vs.map .value)).used = heap.used + (vs.length + 1) := by
  rw [Heap.extend_used, List.length_cons, List.length_map]

end Actions

/-! ## Steps -/

/-- An instruction that stores something takes the blocks for it, unless it is to enter a closure
that cannot be entered. -/
theorem takes_execute (hw : m.heap.capacity < wordLimit) {n : Node} {c : Charge}
    (hc : m.chargeOf n = some c)
    (hentry : ∀ ref, n = .apply → m.regs.a = .closure ref → m.Enterable code ref) :
    m.Takes c.blocks .running (m.execute code n) := by
  cases n with
  | close formals body next =>
    cases hc
    rw [execute, makeClosure_eq]
    exact (takes_ite (Heap.extend_used _ _)).echo (echoes_andGoto next _)
  | conti next =>
    cases hc
    rw [execute, capture_eq]
    exact (takes_ite (Heap.extend_used _ _)).echo (echoes_andGoto next _)
  | frame returnTo next =>
    cases hc
    rw [execute, pushFrame_eq hw]
    exact (takes_ite (used_store _ _ _)).echo (echoes_andGoto next _)
  | apply =>
    cases ha : m.regs.a with
    | closure ref =>
      simp only [chargeOf, ha] at hc
      cases hc
      obtain ⟨c, names, hget, hnames, harity⟩ := hentry ref rfl ha
      have happly : m.apply code = m.applyClosure code ref := by rw [apply, ha]
      rw [execute, happly, applyClosure_eq hw hget hnames, if_neg (not_not_intro harity)]
      exact (takes_ite (used_store _ _ _)).echo (echoes_andContinue _)
    | _ =>
      simp only [chargeOf, ha] at hc
      cases hc
  | _ => cases hc

/-- An instruction that stores nothing and applies no host procedure takes no blocks and does not
complain of too few. -/
theorem spares_execute {n : Node} (hc : m.chargeOf n = none)
    (hhost : ∀ id, n = .apply → m.regs.a ≠ .primitive id) : m.Spares (m.execute code n) := by
  cases n with
  | halt => exact .of_ok rfl rfl
  | refer var next =>
    simp only [execute]
    split
    · next e he =>
      exact .of_error rfl rfl fun a ha => m.lookup_ne_outOfMemory code var a (ha ▸ he)
    · exact .of_ok rfl rfl
  | constant v next => exact .of_ok rfl rfl
  | test onTrue onFalse => exact .of_ok rfl rfl
  | assign var next => exact (m.spares_assign code var m.regs.a).echo (echoes_andGoto next _)
  | nuate stack var =>
    have hinstall : ∀ m₁ : Machine, m₁.heap = m.heap →
        m.Spares (andContinue (m₁.reinstate stack none)) := by
      intro m₁ hheap
      have hspares := (m₁.spares_reinstate stack).echo (echoes_andContinue _)
      exact ⟨hspares.used.trans (congrArg Arena.used hheap), hspares.noLack⟩
    cases var with
    | none => exact hinstall m rfl
    | some var =>
      simp only [execute]
      split
      · next e he =>
        exact .of_error rfl rfl fun a ha => m.lookup_ne_outOfMemory code var a (ha ▸ he)
      · exact hinstall _ rfl
  | argument next => exact .of_ok rfl rfl
  | apply =>
    simp only [execute, apply]
    split
    · next ref ha =>
      simp only [chargeOf, ha] at hc
      cases hc
    · exact (m.spares_applyContinuation _).echo (echoes_andContinue _)
    · next id ha => exact absurd ha (hhost id rfl)
    · exact .of_error rfl rfl (by simp)
  | ret => exact m.spares_popFrame.echo (echoes_andContinue _)
  | _ => cases hc

/-- A step that passes its checks takes the blocks for what it stores. -/
theorem step_takes (hw : m.heap.capacity < wordLimit) (h : m.Admits code) {c : Charge}
    (hc : m.charge? code = some c) : m.Takes c.blocks .running (m.step code) := by
  obtain ⟨n, hn⟩ := h.node
  rw [charge?, hn, Option.bind_some] at hc
  rw [step_eq_execute h.limit hn]
  have ht : m.tick.Takes c.blocks .running (m.tick.execute code n) :=
    takes_execute (m := m.tick) hw hc fun ref happly ha => h.closure ref (happly ▸ hn) ha
  exact ⟨ht.short, ht.fits⟩

/-- A step that does not pass them fails, and takes no blocks. -/
theorem step_refused (h : ¬ m.Admits code) :
    m.Spares (m.step code) ∧ ∃ e, (m.step code).1 = .error e := by
  cases hl : m.exhaustedLimit? with
  | some limit =>
    simp only [step, hl]
    exact ⟨.of_error rfl rfl (by simp), _, rfl⟩
  | none =>
    cases hn : code.node? m.regs.x with
    | none =>
      simp only [step, hl, hn]
      exact ⟨.of_error rfl rfl (by simp), _, rfl⟩
    | some n =>
      obtain ⟨ref, rfl, ha, hentry⟩ :
          ∃ ref, n = .apply ∧ m.regs.a = .closure ref ∧ ¬ m.Enterable code ref := by
        refine Classical.byContradiction fun hall => h ⟨hl, ⟨n, hn⟩, fun ref happly ha => ?_⟩
        refine Classical.byContradiction fun hentry => hall ?_
        exact ⟨ref, Option.some.inj (hn.symm.trans happly), ha, hentry⟩
      obtain ⟨hspares, e, herror⟩ := applyClosure_refused (m := m.tick) hentry
      have happly : m.tick.apply code = m.tick.applyClosure code ref := by
        have ha' : m.tick.regs.a = .closure ref := ha
        rw [apply, ha']
      have hecho := echoes_andContinue (m.tick.applyClosure code ref)
      have hs := hspares.echo hecho
      rw [step_eq_execute hl hn, execute, happly]
      exact ⟨⟨hs.used, hs.noLack⟩, e, (hecho.error e).mp herror⟩

/-- A step that stores nothing takes no blocks; unless it applies a host procedure, it does not
complain of too few. -/
theorem step_free (hc : m.charge? code = none) :
    (m.step code).2.heap.used = m.heap.used ∧ (¬ m.AppliesHost code → m.Spares (m.step code)) := by
  by_cases hadmits : m.Admits code
  · obtain ⟨n, hn⟩ := hadmits.node
    rw [charge?, hn, Option.bind_some] at hc
    rw [step_eq_execute hadmits.limit hn]
    by_cases hhost : m.AppliesHost code
    · refine ⟨?_, fun hno => absurd hhost hno⟩
      obtain ⟨happly, id, ha⟩ := hhost
      obtain rfl := Option.some.inj (hn.symm.trans happly)
      have ha' : m.tick.regs.a = .primitive id := ha
      rw [execute, snd_andContinue, apply, ha']
      exact m.tick.used_applyPrimitive id
    · have hs : m.tick.Spares (m.tick.execute code n) :=
        spares_execute hc fun id happly ha => hhost ⟨happly ▸ hn, id, ha⟩
      exact ⟨hs.used, fun _ => ⟨hs.used, hs.noLack⟩⟩
  · have hs := (step_refused hadmits).1
    exact ⟨hs.used, fun _ => hs⟩

/-- A step that goes on has taken its cost. -/
theorem used_of_running (hw : m.heap.capacity < wordLimit)
    (h : m.step code = (.ok .running, m')) : m'.heap.used = m.heap.used + m.cost code := by
  have hstate : m' = (m.step code).2 := by rw [h]
  cases hc : m.charge? code with
  | none => rw [cost, hc, hstate, (step_free hc).1]; rfl
  | some c =>
    by_cases hadmits : m.Admits code
    · have ht := step_takes hw hadmits hc
      rcases Nat.lt_or_ge m.heap.remaining c.blocks with hshort | hfits
      · obtain ⟨⟨e, herror⟩, -⟩ := ht.short hshort
        rw [h] at herror
        cases herror
      · rw [cost, hc, hstate, (ht.fits hfits).2]
        rfl
    · obtain ⟨-, e, herror⟩ := step_refused hadmits
      rw [h] at herror
      cases herror

/-- A step that halts or fails has taken nothing. -/
theorem used_of_stopped (hw : m.heap.capacity < wordLimit)
    (h : (m.step code).1 ≠ .ok .running) : (m.step code).2.heap.used = m.heap.used := by
  cases hc : m.charge? code with
  | none => exact (step_free hc).1
  | some c =>
    by_cases hadmits : m.Admits code
    · have ht := step_takes hw hadmits hc
      rcases Nat.lt_or_ge m.heap.remaining c.blocks with hshort | hfits
      · exact congrArg Arena.used (ht.short hshort).2
      · exact absurd (ht.fits hfits).1 h
    · exact (step_refused hadmits).1.used

/-- The arena runs out exactly when an instruction that has passed its checks needs more than is
left. -/
theorem outOfMemory_iff (hw : m.heap.capacity < wordLimit) :
    (∃ e, (m.step code).1 = .error (.outOfMemory e)) ∧ ¬ m.AppliesHost code ↔
      m.Admits code ∧ m.heap.remaining < m.cost code := by
  cases hc : m.charge? code with
  | none =>
    have hcost : m.cost code = 0 := by rw [cost, hc]; rfl
    constructor
    · rintro ⟨⟨e, herror⟩, hhost⟩
      exact absurd herror (((step_free hc).2 hhost).noLack e)
    · rintro ⟨-, hlt⟩
      rw [hcost] at hlt
      exact absurd hlt (Nat.not_lt_zero _)
  | some c =>
    have hcost : m.cost code = c.blocks := by rw [cost, hc]; rfl
    have hhost : ¬ m.AppliesHost code := by
      rintro ⟨happly, id, ha⟩
      simp only [charge?, happly, Option.bind_some, chargeOf, ha] at hc
      cases hc
    rw [hcost]
    constructor
    · rintro ⟨⟨e, herror⟩, -⟩
      have hadmits : m.Admits code :=
        Classical.byContradiction fun hno => (step_refused hno).1.noLack e herror
      refine ⟨hadmits, Nat.lt_of_not_le fun hfits => ?_⟩
      rw [((step_takes hw hadmits hc).fits hfits).1] at herror
      cases herror
    · rintro ⟨hadmits, hshort⟩
      exact ⟨((step_takes hw hadmits hc).short hshort).1, hhost⟩

/-! ## Runs -/

/-- What the next step stores: nothing if it halts or fails. -/
def spent (m : Machine) (code : Code) : List Charge :=
  match (m.step code).1 with
  | .ok .running => (m.charge? code).toList
  | _ => []

/-- The machine goes from one state to another without a reset, and stores the charges on its way.
The host may step with any code, start anew and change what is its own. -/
inductive Course (m : Machine) : List Charge → Machine → Prop
  | refl : Course m [] m
  | step {cs : List Charge} {m' : Machine} (code : Code) :
    Course m cs m' → Course m (cs ++ m'.spent code) (m'.step code).2
  | start {cs : List Charge} {m' : Machine} (entry : NodeId) :
    Course m cs m' → Course m cs (m'.start entry)
  | adjust {cs : List Charge} {m' : Machine} (globals : Globals) (primitives : Array Primitive)
    (limit : Option Nat) : Course m cs m' → Course m cs { m' with globals, primitives, limit }

theorem used_step (hw : m.heap.capacity < wordLimit) (code : Code) :
    (m.step code).2.heap.used = m.heap.used + ((m.spent code).map Charge.blocks).sum := by
  by_cases h : (m.step code).1 = .ok .running
  · have hcost : ((m.spent code).map Charge.blocks).sum = m.cost code := by
      rw [spent, h, cost]
      cases m.charge? code <;> rfl
    rw [hcost]
    exact used_of_running hw (Prod.ext h rfl)
  · have hnone : m.spent code = [] := by
      unfold spent
      split
      · next heq => exact absurd heq h
      · rfl
    rw [hnone, used_of_stopped hw h]
    rfl

theorem Course.reachable {cs : List Charge} (h : Course m cs m') (hm : m.Reachable) :
    m'.Reachable := by
  induction h with
  | refl => exact hm
  | step code _ ih => exact ih.step code
  | start entry _ ih => exact ih.start entry
  | adjust globals primitives limit _ ih => exact ih.adjust globals primitives limit

theorem Course.used_eq {cs : List Charge} (h : Course m cs m') (hm : m.Reachable) :
    m'.heap.used = m.heap.used + (cs.map Charge.blocks).sum := by
  induction h with
  | refl => rfl
  | step code h ih =>
    rw [used_step (h.reachable hm).scoped.capacity_lt, ih, List.map_append, List.sum_append,
      Nat.add_assoc]
  | start entry _ ih => exact ih
  | adjust globals primitives limit _ ih => exact ih

/-- Running on is a course. -/
theorem Course.proceed {cs : List Charge} (h : Course m cs m') (code : Code)
    (expired : Nat → Bool) (fuel : Nat) :
    ∃ cs', Course m (cs ++ cs') (proceed code expired fuel m').2 := by
  induction fuel generalizing cs m' with
  | zero => exact ⟨[], by rwa [List.append_nil]⟩
  | succ fuel ih =>
    have hstep := h.step code
    unfold Machine.proceed
    split
    · exact ⟨[], by rwa [List.append_nil]⟩
    · split
      · next heq => exact ⟨_, by rwa [heq] at hstep⟩
      · next heq => exact ⟨_, by rwa [heq] at hstep⟩
      · next heq =>
        rw [heq] at hstep
        obtain ⟨cs', hc⟩ := ih hstep
        exact ⟨_, by rwa [List.append_assoc] at hc⟩

end Machine

/-- The blocks in use are accounted for exactly. A step that goes on takes one block if it makes a
closure or captures the stack, one and another for each argument if it pushes a frame or enters a
closure, and none otherwise; a step that halts or fails takes none. The arena reports that it is out
of memory exactly when a step has passed its other checks and needs more than is left. Over any
course without a reset, and that is what each run is, the blocks in use grow by the sum; so a call
that a procedure makes of itself, after `p` frames without arguments, costs `p + 1` blocks and
another for each argument. -/
theorem arena_cost_is_accounted {m : Machine} (hm : m.Reachable) :
    (∀ (code : Code) (m' : Machine), m.step code = (.ok .running, m') →
      m'.heap.used = m.heap.used + m.cost code) ∧
    (∀ code : Code, (m.step code).1 ≠ .ok .running →
      (m.step code).2.heap.used = m.heap.used) ∧
    (∀ code : Code,
      (∃ e, (m.step code).1 = .error (.outOfMemory e)) ∧ ¬ m.AppliesHost code ↔
        m.Admits code ∧ m.heap.remaining < m.cost code) ∧
    (∀ (cs : List Charge) (m' : Machine), m.Course cs m' →
      m'.heap.used = m.heap.used + (cs.count .closure + cs.count .continuation +
        ((cs.filterMap Charge.rib?).map (· + 1)).sum)) ∧
    (∀ (code : Code) (entry : NodeId) (expired : Nat → Bool) (fuel : Nat),
      ∃ cs, m.Course cs (m.runUntil code entry expired fuel).2) ∧
    ∀ (code : Code) (ref : Ref Closure) (p : Nat) (m₁ m' : Machine),
      m.Course (List.replicate p (.frame 0)) m₁ → code.node? m₁.regs.x = some .apply →
      m₁.regs.a = .closure ref → m₁.step code = (.ok .running, m') →
        m'.heap.used = m.heap.used + (p + 1 + m₁.regs.r.length) := by
  have hw := hm.scoped.capacity_lt
  refine ⟨fun code m' h => Machine.used_of_running hw h,
    fun code h => Machine.used_of_stopped hw h, fun code => Machine.outOfMemory_iff hw, ?_, ?_, ?_⟩
  · intro cs m' hcourse
    rw [hcourse.used_eq hm, Charge.sum_blocks]
  · intro code entry expired fuel
    exact (Machine.Course.refl.start entry).proceed code expired fuel
  · intro code ref p m₁ m' hcourse hnode ha hstep
    have hframes : ((List.replicate p (.frame 0)).map Charge.blocks).sum = p := by
      rw [List.map_replicate, List.sum_replicate_nat, Charge.blocks, Nat.mul_one]
    have hcall : m₁.cost code = m₁.regs.r.length + 1 := by
      simp only [Machine.cost, Machine.charge?, hnode, Option.bind_some, Machine.chargeOf, ha]
      rfl
    rw [Machine.used_of_running (hcourse.reachable hm).scoped.capacity_lt hstep,
      hcourse.used_eq hm, hframes, hcall]
    omega

/-- A procedure that counts its argument down to zero, with two host procedures. -/
def countdownCode : Code where
  nodes := #[.frame 7 1, .refer 0 2, .argument 3, .constant (.int 0) 4, .argument 5, .refer 1 6,
    .apply, .test 19 8, .frame 15 9, .refer 0 10, .argument 11, .constant (.int 1) 12, .argument 13,
    .refer 2 14, .apply, .argument 16, .refer 3 17, .apply, .close 0 0 19, .halt,
    .constant (.int 3) 21, .argument 16]
  formals := #[[0]]

def countdownGlobals : Globals :=
  ⟨[(1, .primitive 0), (2, .primitive 1), (3, .closure ⟨⟨0, 1⟩⟩)]⟩

/-- The procedure has been entered with the argument three. -/
def countdownMachine : Machine where
  heap := ⟨32, #[.closure ⟨0, 0, none⟩, .environment ⟨0, ⟨0⟩, 1⟩, .value (.int 3)], 3, 1⟩
  globals := countdownGlobals
  primitives := #[⟨1, .atLeast 1, Arithmetic.equal⟩, ⟨2, .atLeast 1, Arithmetic.subtract⟩]
  regs := { a := .closure ⟨⟨0, 1⟩⟩, e := some ⟨⟨1, 1⟩⟩ }
  stats := { instructions := 4 }

theorem countdownMachine_reachable : countdownMachine.Reachable := by
  have hnew : Machine.Reachable { heap := ⟨32, #[], 0, 1⟩ } :=
    @Machine.Reachable.create { arena := .ofBlocks 32 } {} ⟨2⟩ _ rfl
  have hclosed := ((hnew.start 18).step countdownCode).adjust countdownGlobals
    countdownMachine.primitives none
  have hargument := ((hclosed.start 20).step countdownCode).step countdownCode
  exact (hargument.step countdownCode).step countdownCode

/-- The argument has been compared with zero. -/
def countdownTested : Machine :=
  { countdownMachine with
    heap := ⟨32, #[.closure ⟨0, 0, none⟩, .environment ⟨0, ⟨0⟩, 1⟩, .value (.int 3),
      .frame ⟨7, ⟨2⟩, .none, 0⟩], 4, 1⟩
    regs := { a := .bool false, x := 7, e := some ⟨⟨1, 1⟩⟩ }
    stats := { instructions := 11, framesPushed := 1, framesPopped := 1, maxDepth := 1 } }

/-- One has been taken off it, and the procedure is about to call itself. -/
def countdownReady : Machine :=
  { countdownMachine with
    heap := ⟨32, #[.closure ⟨0, 0, none⟩, .environment ⟨0, ⟨0⟩, 1⟩, .value (.int 3),
      .frame ⟨7, ⟨2⟩, .none, 0⟩, .frame ⟨15, ⟨2⟩, .none, 0⟩], 5, 1⟩
    regs := { a := .closure ⟨⟨0, 1⟩⟩, x := 17, e := some ⟨⟨1, 1⟩⟩, collected := [.int 2] }
    stats := { instructions := 21, framesPushed := 2, framesPopped := 2, maxDepth := 1 } }

theorem countdownTested_course : countdownMachine.Course [.frame 0] countdownTested := by
  have hargument : countdownMachine.Course _ _ := ((Machine.Course.refl.step countdownCode).step
    countdownCode).step countdownCode
  exact (((hargument.step countdownCode).step countdownCode).step countdownCode).step countdownCode

theorem countdownReady_course :
    countdownMachine.Course (List.replicate 2 (.frame 0)) countdownReady := by
  have hargument := (((countdownTested_course.step countdownCode).step countdownCode).step
    countdownCode).step countdownCode
  have hreturned := (((hargument.step countdownCode).step countdownCode).step
    countdownCode).step countdownCode
  exact (hreturned.step countdownCode).step countdownCode

/-- One round of the countdown costs four blocks. -/
theorem arena_cost_is_accounted_countdown :
    countdownMachine.Reachable ∧
      countdownMachine.Course (List.replicate 2 (.frame 0)) countdownReady ∧
      ∃ m', countdownReady.step countdownCode = (.ok .running, m') ∧
        m'.regs.x = countdownMachine.regs.x ∧
        m'.heap.used = countdownMachine.heap.used + (2 + 1 + 1) := by
  obtain ⟨-, -, -, -, -, hcall⟩ := arena_cost_is_accounted countdownMachine_reachable
  exact ⟨countdownMachine_reachable, countdownReady_course, _, rfl, rfl,
    hcall countdownCode ⟨⟨0, 1⟩⟩ 2 countdownReady _ countdownReady_course rfl rfl rfl⟩

end ClosureMachine
