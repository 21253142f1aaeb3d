import ClosureMachine.Proofs.Machine.Actions

/-!
Twins: machines that agree in all but three things, which few instructions look at. These are the
limit and the count of instructions, which only decide whether a step is taken at all, and the
globals, which only matter to an instruction that names one.

Two machines that are twins step alike (`Twin.step`), as long as the limit of neither is used up
and the step needs no global that only one of them has. Most actions of the machine touch none of
the three (`Oblivious`), and for these it is one lemma.
-/

namespace ClosureMachine

/-- An assignment that succeeds also does where there are more bindings, and those stay as they
are. -/
theorem Globals.set?_or {g g' g₁ : Globals} {more : SymbolId → Option Value} {var : SymbolId}
    {v : Value} (hg : ∀ id, g'.get? id = (g.get? id).or (more id)) (hs : g.set? var v = some g₁) :
    ∃ g₂, g'.set? var v = some g₂ ∧ ∀ id, g₂.get? id = (g₁.get? id).or (more id) := by
  have hbound : g.get? var ≠ none := by
    intro hn
    rw [(set?_eq_none_iff g var v).mpr hn] at hs
    cases hs
  cases hs' : g'.set? var v with
  | none =>
    have hn := (set?_eq_none_iff g' var v).mp hs'
    rw [hg, Option.or_eq_none_iff] at hn
    exact absurd hn.1 hbound
  | some g₂ =>
    refine ⟨g₂, rfl, fun id => ?_⟩
    rw [get?_of_set? hs', get?_of_set? hs, hg]
    split <;> rfl

namespace Machine

variable {m m' : Machine} {code : Code}

/-- `m` with other globals, another limit and another count of instructions. -/
def varied (m : Machine) (g : Globals) (limit : Option Nat) (count : Nat) : Machine :=
  { m with globals := g, limit, stats := { m.stats with instructions := count } }

section

variable (m : Machine) (g : Globals) (limit : Option Nat) (count : Nat)

@[simp] theorem varied_heap : (m.varied g limit count).heap = m.heap := rfl

@[simp] theorem varied_globals : (m.varied g limit count).globals = g := rfl

@[simp] theorem varied_primitive? (id : PrimitiveId) :
    (m.varied g limit count).primitive? id = m.primitive? id := rfl

@[simp] theorem varied_depth : (m.varied g limit count).depth = m.depth := rfl

@[simp] theorem varied_regs : (m.varied g limit count).regs = m.regs := rfl

end

/-- `m'` is `m` under another limit and with another count of instructions, and besides the globals
of `m` it has the bindings `more`. -/
inductive Twin (more : SymbolId → Option Value) (limit : Option Nat) (count : Nat) (m : Machine) :
    Machine → Prop
  | intro (g : Globals) : (∀ id, g.get? id = (m.globals.get? id).or (more id)) →
      Twin more limit count m (m.varied g limit count)

/-- Equal outcomes, and twins as states. -/
def Matched {α : Type} (more : SymbolId → Option Value) (limit : Option Nat) (count : Nat)
    (r r' : Result α) : Prop :=
  r'.1 = r.1 ∧ Twin more limit count r.2 r'.2

/-- The action neither reads nor changes globals, limit and count. -/
def Oblivious {α : Type} (f : Machine → Result α) : Prop :=
  ∀ m g limit count, f (m.varied g limit count) = ((f m).1, (f m).2.varied g limit count)

section

variable {more : SymbolId → Option Value} {limit : Option Nat} {count : Nat}

theorem Twin.refl (m : Machine) : Twin (fun _ => none) m.limit m.stats.instructions m m :=
  .intro m.globals fun id => by rw [Option.or_none]

theorem Twin.regs (h : Twin more limit count m m') : m'.regs = m.regs := by
  cases h with
  | intro g hg => rfl

theorem Twin.limit_eq (h : Twin more limit count m m') : m'.limit = limit := by
  cases h with
  | intro g hg => rfl

theorem Twin.count_eq (h : Twin more limit count m m') : m'.stats.instructions = count := by
  cases h with
  | intro g hg => rfl

theorem Oblivious.globals {α : Type} {f : Machine → Result α} (hf : Oblivious f) (m : Machine) :
    (f m).2.globals = m.globals := by
  have h := hf m m.globals m.limit m.stats.instructions
  exact congrArg (fun r => r.2.globals) h

theorem Oblivious.matched {α : Type} {f : Machine → Result α} (hf : Oblivious f)
    (h : Twin more limit count m m') : Matched more limit count (f m) (f m') := by
  cases h with
  | intro g hg =>
    rw [hf m g limit count]
    exact ⟨rfl, .intro g (by rw [hf.globals m]; exact hg)⟩

/-! ## Actions that touch none of the three -/

theorem oblivious_makeClosure (formals : FormalsId) (body : NodeId) :
    Oblivious fun m => m.makeClosure formals body := by
  intro m g limit count
  simp only [makeClosure, varied_heap, varied_regs]
  split <;> rfl

theorem oblivious_capture : Oblivious capture := by
  intro m g limit count
  simp only [capture, varied_heap, varied_regs, varied_depth]
  split <;> rfl

theorem oblivious_pushFrame (returnTo : NodeId) : Oblivious fun m => m.pushFrame returnTo := by
  intro m g limit count
  simp only [pushFrame, varied_heap, varied_regs]
  split <;> rfl

theorem oblivious_popFrame : Oblivious popFrame := by
  intro m g limit count
  simp only [popFrame, varied_heap, varied_regs]
  repeat' split
  all_goals rfl

theorem oblivious_reinstate (stack : Option FrameRef) :
    Oblivious fun m => m.reinstate stack none := by
  intro m g limit count
  have hpop : ((m.varied g limit count).reinstated stack).popFrame = _ :=
    oblivious_popFrame (m.reinstated stack) g limit count
  simp only [reinstate_none_eq, varied_heap, hpop]
  split <;> rfl

theorem oblivious_applyClosure (code : Code) (ref : Ref Closure) :
    Oblivious fun m => m.applyClosure code ref := by
  intro m g limit count
  simp only [applyClosure, varied_heap, varied_regs]
  cases m.heap.get? ref with
  | none => rfl
  | some c =>
    simp only
    cases code.formals? c.formals with
    | none => rfl
    | some names =>
      by_cases ha : names.length = m.regs.r.length
      · simp only [ne_eq, ha, not_true_eq_false, ↓reduceIte]
        split <;> rfl
      · simp only [ne_eq, ha, not_false_eq_true, ↓reduceIte]

theorem oblivious_applyContinuation (ref : Ref Continuation) :
    Oblivious fun m => m.applyContinuation ref := by
  intro m g limit count
  simp only [applyContinuation, varied_heap, varied_regs]
  cases m.heap.get? ref with
  | none => rfl
  | some k =>
    simp only
    split
    · next v _ => exact oblivious_popFrame (m.thrown k v) g limit count
    · rfl

theorem oblivious_applyPrimitive (id : PrimitiveId) : Oblivious fun m => m.applyPrimitive id := by
  intro m g limit count
  simp only [applyPrimitive, varied_primitive?, varied_regs]
  cases m.primitive? id with
  | none => rfl
  | some p =>
    cases ha : p.arity.accepts m.regs.r.length with
    | false => simp only [ha, Bool.false_eq_true, ↓reduceIte]
    | true =>
      simp only [ha, ↓reduceIte]
      cases p.run m.regs.r with
      | error e => rfl
      | ok v => exact oblivious_popFrame (m.setAccumulator v) g limit count

theorem oblivious_apply (code : Code) : Oblivious fun m => m.apply code := by
  intro m g limit count
  simp only [apply, varied_regs]
  split
  · next ref _ => exact oblivious_applyClosure code ref m g limit count
  · next ref _ => exact oblivious_applyContinuation ref m g limit count
  · next id _ => exact oblivious_applyPrimitive id m g limit count
  · rfl

/-! ## Changes of twins -/

theorem fst_andGoto_error {r : Result Unit} {e : MachineError} (h : r.1 = .error e)
    (next : NodeId) : (andGoto next r).1 = .error e := by
  obtain ⟨o, m⟩ := r
  cases h
  rfl

theorem Matched.andGoto {r r' : Result Unit} (h : Matched more limit count r r') (next : NodeId) :
    Matched more limit count (andGoto next r) (andGoto next r') := by
  obtain ⟨o, m⟩ := r
  obtain ⟨o', m'⟩ := r'
  obtain ⟨rfl, ht⟩ := h
  have ht : Twin more limit count m m' := ht
  cases ht with
  | intro g hg => cases o' <;> exact ⟨rfl, .intro g hg⟩

theorem Matched.andContinue {r r' : Result Unit} (h : Matched more limit count r r') :
    Matched more limit count (andContinue r) (andContinue r') := by
  obtain ⟨o, m⟩ := r
  obtain ⟨o', m'⟩ := r'
  obtain ⟨rfl, ht⟩ := h
  cases o' <;> exact ⟨rfl, ht⟩

theorem Twin.setAccumulator (h : Twin more limit count m m') (v : Value) :
    Twin more limit count (m.setAccumulator v) (m'.setAccumulator v) := by
  cases h with
  | intro g hg => exact .intro g hg

theorem Twin.goto (h : Twin more limit count m m') (x : NodeId) :
    Twin more limit count (m.goto x) (m'.goto x) := by
  cases h with
  | intro g hg => exact .intro g hg

theorem Twin.congr {more' : SymbolId → Option Value} (h : Twin more limit count m m')
    (hm : ∀ id, more id = more' id) : Twin more' limit count m m' :=
  funext hm ▸ h

theorem Twin.of_tick (h : Twin more limit count m m') : Twin more limit count m.tick m' := by
  cases h with
  | intro g hg => exact .intro (m := m.tick) g hg

theorem Twin.of_limit (h : Twin more limit count m m') (limit' : Option Nat) :
    Twin more limit count { m with limit := limit' } m' := by
  cases h with
  | intro g hg => exact .intro (m := { m with limit := limit' }) g hg

/-- A binding that the twin has beforehand is made in `m` as well. -/
theorem Twin.define {var : SymbolId} {v : Value}
    (h : Twin (fun id => if id = var then some v else more id) limit count m m')
    (hvar : m.globals.get? var = none) :
    Twin more limit count { m with globals := m.globals.define var v } m' := by
  cases h with
  | intro g hg =>
    refine .intro (m := { m with globals := m.globals.define var v }) g fun id => ?_
    rw [hg, Globals.get?_define]
    by_cases hid : id = var
    · simp [hid, hvar]
    · simp [hid]

theorem Twin.tick (h : Twin more limit count m m') :
    Twin more limit (count + 1) m.tick m'.tick := by
  cases h with
  | intro g hg => exact .intro g hg

/-! ## Actions that name a global -/

/-- A variable that `m` can read has the same value in a twin. -/
theorem Twin.lookup (h : Twin more limit count m m') {var : SymbolId}
    (hm : m.lookup code var = .error (.unboundVariable var) → more var = none) :
    m'.lookup code var = m.lookup code var := by
  cases h with
  | intro g hg =>
    simp only [Machine.lookup, varied_heap, varied_regs, varied_globals] at hm ⊢
    cases hf : Binding.find m.heap code m.regs.e var with
    | slot values index => rfl
    | broken => rfl
    | endless => rfl
    | free =>
      simp only [hf] at hm
      simp only [hg]
      cases hv : m.globals.get? var with
      | some v => rfl
      | none =>
        simp only [hv] at hm
        simp [hm]

theorem Twin.assign (h : Twin more limit count m m') {var : SymbolId} {v : Value}
    (hm : (m.assign code var v).1 = .error (.unboundVariable var) → more var = none) :
    Matched more limit count (m.assign code var v) (m'.assign code var v) := by
  cases h with
  | intro g hg =>
    simp only [Machine.assign, varied_heap, varied_regs, varied_globals] at hm ⊢
    cases hf : Binding.find m.heap code m.regs.e var with
    | slot values index =>
      simp only
      split <;> exact ⟨rfl, .intro g hg⟩
    | broken => exact ⟨rfl, .intro g hg⟩
    | endless => exact ⟨rfl, .intro g hg⟩
    | free =>
      simp only [hf] at hm
      simp only
      cases hs : m.globals.set? var v with
      | some g₁ =>
        obtain ⟨g₂, hs', hg₂⟩ := Globals.set?_or hg hs
        rw [hs']
        exact ⟨rfl, .intro g₂ hg₂⟩
      | none =>
        have hnone : g.get? var = none := by
          rw [hg, (Globals.set?_eq_none_iff _ var v).mp hs, hm (by rw [hs])]
          rfl
        rw [(Globals.set?_eq_none_iff g var v).mpr hnone]
        exact ⟨rfl, .intro g hg⟩

/-! ## Steps -/

/-- Twins execute an instruction alike, unless it needs a global that only one of them has. -/
theorem Twin.execute (h : Twin more limit count m m') {n : Node}
    (hm : ∀ var, (m.execute code n).1 = .error (.unboundVariable var) → more var = none) :
    Matched more limit count (m.execute code n) (m'.execute code n) := by
  cases n with
  | halt =>
    simp only [Machine.execute, h.regs]
    exact ⟨rfl, h⟩
  | refer var next =>
    have hv : m'.lookup code var = m.lookup code var :=
      h.lookup fun hu => hm var (by simp only [Machine.execute, hu])
    simp only [Machine.execute, hv]
    cases m.lookup code var with
    | error e => exact ⟨rfl, h⟩
    | ok v => exact ⟨rfl, (h.setAccumulator v).goto next⟩
  | constant v next => exact ⟨rfl, (h.setAccumulator v).goto next⟩
  | close formals body next => exact ((oblivious_makeClosure formals body).matched h).andGoto next
  | test onTrue onFalse =>
    simp only [Machine.execute, h.regs]
    exact ⟨rfl, h.goto _⟩
  | assign var next =>
    simp only [Machine.execute, h.regs] at hm ⊢
    exact (h.assign fun hu => hm var (fst_andGoto_error hu next)).andGoto next
  | conti next => exact (oblivious_capture.matched h).andGoto next
  | nuate stack var =>
    cases var with
    | none => exact ((oblivious_reinstate stack).matched h).andContinue
    | some var =>
      have hv : m'.lookup code var = m.lookup code var :=
        h.lookup fun hu => hm var (by simp only [Machine.execute, hu])
      simp only [Machine.execute, hv]
      cases m.lookup code var with
      | error e => exact ⟨rfl, h⟩
      | ok v => exact ((oblivious_reinstate stack).matched (h.setAccumulator v)).andContinue
  | frame returnTo next => exact ((oblivious_pushFrame returnTo).matched h).andGoto next
  | argument next =>
    cases h with
    | intro g hg => exact ⟨rfl, .intro g hg⟩
  | apply => exact ((oblivious_apply code).matched h).andContinue
  | ret => exact (oblivious_popFrame.matched h).andContinue

/-- The count after a step that the limit allows. -/
def countAfter (m : Machine) (code : Code) (count : Nat) : Nat :=
  if (code.node? m.regs.x).isSome then count + 1 else count

/-- Twins step alike. The step is counted in both or in neither. -/
theorem Twin.step (h : Twin more limit count m m') (code : Code) (hl : m.exhaustedLimit? = none)
    (hl' : m'.exhaustedLimit? = none)
    (hm : ∀ var, (m.step code).1 = .error (.unboundVariable var) → more var = none) :
    Matched more limit (m.countAfter code count) (m.step code) (m'.step code) := by
  cases hn : code.node? m.regs.x with
  | none =>
    simp only [Machine.step, hl, hl', h.regs, hn, countAfter]
    exact ⟨rfl, h⟩
  | some n =>
    rw [step_eq_execute hl hn] at hm ⊢
    rw [step_eq_execute hl' (h.regs.symm ▸ hn)]
    simp only [countAfter, hn]
    exact h.tick.execute hm

theorem exhaustedLimit?_eq_none_iff :
    m.exhaustedLimit? = none ↔ ∀ l ∈ m.limit, m.stats.instructions < l := by
  simp [exhaustedLimit?, Option.filter_eq_none_iff]

theorem exhaustedLimit?_of_none (h : m.limit = none) : m.exhaustedLimit? = none := by
  rw [exhaustedLimit?, h]
  rfl

/-- A machine is its own twin, and its step keeps the limit. -/
theorem step_limit (m : Machine) (code : Code) : (m.step code).2.limit = m.limit := by
  cases hl : m.exhaustedLimit? with
  | some limit => simp only [Machine.step, hl]
  | none => exact ((Twin.refl m).step code hl hl fun _ _ => rfl).2.limit_eq

end

end Machine

end ClosureMachine
