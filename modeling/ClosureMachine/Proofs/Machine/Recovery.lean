import ClosureMachine.Proofs.Arena.Ledger
import ClosureMachine.Proofs.Machine.Procedures
import ClosureMachine.Proofs.Machine.Twins

/-!
Errors after which a run can go on. A step that fails with an error that is not fatal has changed
nothing but the count of instructions (`step_failed`): an instruction checks what it needs before it
writes, and the only thing that is checked later, the frame to return to, fails fatally. No
assumption about the state is needed for this.

So a host may bind a name that was missing or lift a limit, and take the step again. `Mended` is
about a run with any number of such interruptions. The same code run without a limit, with all the
bindings there from the start, never fails in that stretch and comes through the same states
(`Mended.twin`, `nonfatal_failure_is_resumable`).
-/

namespace ClosureMachine

/-! ## Steps that fail -/

/-- Errors of the program being run, which a single instruction may meet. -/
def MachineError.OfProgram : MachineError → Prop
  | unboundVariable _ | notCallable _ | arityMismatch .. | outOfMemory _ | primitiveFailed ..
  | overflow _ => True
  | _ => False

theorem MachineError.IsArithmetic.ofProgram {e : MachineError} (h : e.IsArithmetic) :
    e.OfProgram := by
  cases e with
  | primitiveFailed name message => trivial
  | overflow op => trivial
  | _ => exact h.elim

theorem Arena.eq_of_allocWithTail_error {β η α : Type} [Inhabited β] [Storable β η] [Storable β α]
    {a a' : Arena β} {h : η} {xs : List α} {e : ArenaError}
    (heq : a.allocWithTail h xs = (.error e, a')) : a' = a := by
  rcases a.allocWithTail_cases h xs with ⟨e', he⟩ | ⟨n, -, -, he⟩
  · rw [he] at heq
    cases heq
    rfl
  · rw [he] at heq
    cases heq

namespace Machine

variable {m m' : Machine} {code : Code}

/-- The host procedures report their failures as such. -/
def Candid (m : Machine) : Prop :=
  ∀ p ∈ m.primitives, ∀ args e, p.run args = .error e → e.IsArithmetic

/-- If the action failed and the error is not fatal, `m` is as it was, and the error is the
program's or was reported by a host procedure. -/
def Intact {α : Type} (m : Machine) (r : Result α) : Prop :=
  ∀ e, r.1 = .error e → e.isFatal = false →
    r.2 = m ∧ (e.OfProgram ∨ ∃ p ∈ m.primitives, ∃ args, p.run args = .error e)

theorem Intact.ok {α : Type} (a : α) : m.Intact (.ok a, m') := fun _ h => by cases h

theorem Intact.program {α : Type} {e : MachineError} (he : e.OfProgram) :
    m.Intact ((.error e, m) : Result α) := by
  intro e' heq _
  cases heq
  exact ⟨rfl, .inl he⟩

theorem Intact.fatal {α : Type} {e : MachineError} (he : e.isFatal = true) :
    m.Intact ((.error e, m') : Result α) := by
  intro e' heq hf
  cases heq
  rw [he] at hf
  cases hf

theorem Intact.andGoto {r : Result Unit} (h : m.Intact r) (next : NodeId) :
    m.Intact (andGoto next r) := by
  obtain ⟨e | u, m₁⟩ := r
  · intro e' heq
    cases heq
    exact h e rfl
  · exact .ok _

theorem Intact.andContinue {r : Result Unit} (h : m.Intact r) : m.Intact (andContinue r) := by
  obtain ⟨e | u, m₁⟩ := r
  · intro e' heq
    cases heq
    exact h e rfl
  · exact .ok _

/-- Returning has nothing to take back, whatever was changed before it: it fails fatally or not at
all. -/
theorem intact_popFrame (m₀ m : Machine) : m₀.Intact m.popFrame := by
  unfold popFrame
  repeat' split
  · exact .fatal rfl
  · exact .fatal rfl
  · exact .fatal rfl
  · exact .ok _

theorem intact_makeClosure (m : Machine) (formals : FormalsId) (body : NodeId) :
    m.Intact (m.makeClosure formals body) := by
  rw [makeClosure_eq]
  split
  · exact .program trivial
  · exact .ok _

theorem intact_capture (m : Machine) : m.Intact m.capture := by
  rw [capture_eq]
  split
  · exact .program trivial
  · exact .ok _

theorem intact_pushFrame (m : Machine) (returnTo : NodeId) :
    m.Intact (m.pushFrame returnTo) := by
  unfold pushFrame
  split
  · next heq =>
    rw [Arena.eq_of_allocWithTail_error heq]
    exact .program trivial
  · exact .ok _

theorem intact_applyClosure (m : Machine) (ref : Ref Closure) :
    m.Intact (m.applyClosure code ref) := by
  unfold applyClosure
  split
  · exact .fatal rfl
  · split
    · exact .fatal rfl
    · split
      · exact .program trivial
      · split
        · next heq =>
          rw [Arena.eq_of_allocWithTail_error heq]
          exact .program trivial
        · exact .ok _

theorem intact_applyContinuation (m : Machine) (ref : Ref Continuation) :
    m.Intact (m.applyContinuation ref) := by
  unfold applyContinuation
  split
  · exact .fatal rfl
  · split
    · exact intact_popFrame _ _
    · exact .program trivial

theorem intact_applyPrimitive (m : Machine) (id : PrimitiveId) :
    m.Intact (m.applyPrimitive id) := by
  unfold applyPrimitive
  split
  · exact .fatal rfl
  · next p hp =>
    split
    · split
      · next e he =>
        intro e' heq _
        cases heq
        exact ⟨rfl, .inr ⟨p, Array.mem_of_getElem? hp, _, he⟩⟩
      · exact intact_popFrame _ _
    · exact .program trivial

theorem intact_apply (m : Machine) (code : Code) : m.Intact (m.apply code) := by
  unfold apply
  split
  · exact intact_applyClosure m _
  · exact intact_applyContinuation m _
  · exact intact_applyPrimitive m _
  · exact .program trivial

theorem intact_lookup {α : Type} {var : SymbolId} {e : MachineError}
    (h : m.lookup code var = .error e) : m.Intact ((.error e, m) : Result α) := by
  unfold lookup at h
  repeat' split at h
  · cases h
  · cases h
    exact .fatal rfl
  · cases h
  · cases h
    exact .program trivial
  · cases h
    exact .fatal rfl
  · cases h
    exact .fatal rfl

theorem intact_reinstate (m m₁ : Machine) (stack : Option FrameRef) :
    m.Intact (m₁.reinstate stack none) := by
  rcases m₁.reinstate_none_cases stack with heq | heq
  · rw [heq]
    exact intact_popFrame m _
  · rw [heq]
    exact .fatal rfl

theorem intact_assign (m : Machine) (var : SymbolId) (v : Value) :
    m.Intact (m.assign code var v) := by
  unfold assign
  repeat' split
  · exact .ok _
  · exact .fatal rfl
  · exact .ok _
  · exact .program trivial
  · exact .fatal rfl
  · exact .fatal rfl

/-- Whatever an instruction writes before its last check, it fails only fatally after it. -/
theorem intact_execute (m : Machine) (code : Code) (n : Node) : m.Intact (m.execute code n) := by
  cases n with
  | halt => exact .ok _
  | refer var next =>
    simp only [execute]
    split
    · next he => exact intact_lookup he
    · exact .ok _
  | constant v next => exact .ok _
  | close formals body next => exact (intact_makeClosure m formals body).andGoto next
  | test onTrue onFalse => exact .ok _
  | assign var next => exact (intact_assign m var m.regs.a).andGoto next
  | conti next => exact (intact_capture m).andGoto next
  | nuate stack var =>
    cases var with
    | none => exact (intact_reinstate m m stack).andContinue
    | some var =>
      simp only [execute]
      split
      · next he => exact intact_lookup he
      · exact (intact_reinstate m _ stack).andContinue
  | frame returnTo next => exact (intact_pushFrame m returnTo).andGoto next
  | argument next => exact .ok _
  | apply => exact (intact_apply m code).andContinue
  | ret => exact (intact_popFrame m m).andContinue

/-- A step that fails without being fatal has counted an instruction at most. -/
theorem step_failed {e : MachineError} (h : m.step code = (.error e, m'))
    (he : e.isFatal = false) :
    (∃ limit, m.exhaustedLimit? = some limit ∧ e = .instructionLimitExceeded limit ∧ m' = m) ∨
      m' = m.tick ∧ (e.OfProgram ∨ ∃ p ∈ m.primitives, ∃ args, p.run args = .error e) := by
  unfold step at h
  split at h
  · next limit hl =>
    cases h
    exact .inl ⟨limit, hl, rfl, rfl⟩
  · split at h
    · cases h
      cases he
    · next n hn =>
      have hi := intact_execute m.tick code n e (by rw [h]) he
      rw [h] at hi
      exact .inr hi

/-! ## Runs that are helped on -/

/-- The state after `k` steps. -/
def after (code : Code) : Nat → Machine → Machine
  | 0, m => m
  | k + 1, m => ((after code k m).step code).2

theorem after_limit (m : Machine) (code : Code) (k : Nat) : (m.after code k).limit = m.limit := by
  induction k with
  | zero => rfl
  | succ k ih => exact (step_limit _ code).trans ih

/-- Twins with the same bindings stay twins, step by step. -/
theorem Twin.after {count n : Nat} (h : Twin (fun _ => none) none count m (m'.after code n))
    (hl : m.limit = none) (k : Nat) :
    ∃ count, Twin (fun _ => none) none count (m.after code k) (m'.after code (n + k)) := by
  induction k with
  | zero => exact ⟨count, h⟩
  | succ k ih =>
    obtain ⟨count, ht⟩ := ih
    have hl : (m.after code k).limit = none := (after_limit m code k).trans hl
    exact ⟨_, (ht.step code (exhaustedLimit?_of_none hl) (exhaustedLimit?_of_none ht.limit_eq)
      fun _ _ => rfl).2⟩

/-- From `m₀` the machine has come to `m` with a host at its side: `n` instructions have been
executed, steps have failed in between, the host has bound the names in `bs`, which had no value
before, and it has changed the limit as it pleased. -/
inductive Mended (code : Code) (m₀ : Machine) : List (SymbolId × Value) → Nat → Machine → Prop
  | begin : Mended code m₀ [] 0 m₀
  | step {bs : List (SymbolId × Value)} {n : Nat} {m m' : Machine} : Mended code m₀ bs n m →
      m.step code = (.ok .running, m') → Mended code m₀ bs (n + 1) m'
  | fail {bs : List (SymbolId × Value)} {n : Nat} {m m' : Machine} {e : MachineError} :
      Mended code m₀ bs n m → m.step code = (.error e, m') → e.isFatal = false →
        Mended code m₀ bs n m'
  | bind {bs : List (SymbolId × Value)} {n : Nat} {m : Machine} {var : SymbolId} (v : Value) :
      Mended code m₀ bs n m → m.globals.get? var = none →
        Mended code m₀ (bs ++ [(var, v)]) n { m with globals := m.globals.define var v }
  | limit {bs : List (SymbolId × Value)} {n : Nat} {m : Machine} (limit : Option Nat) :
      Mended code m₀ bs n m → Mended code m₀ bs n { m with limit }

/-- A machine that has all bindings from the start and no limit goes through the same states. -/
theorem Mended.twin {m₀ full : Machine} {bs : List (SymbolId × Value)} {n count : Nat}
    (h : Mended code m₀ bs n m) {more : SymbolId → Option Value}
    (hf : Twin (fun id => (bs.lookup id).or (more id)) none count m₀ full) :
    (∀ i < n, ((full.after code i).step code).1 = .ok .running) ∧
      ∃ count, Twin more none count m (full.after code n) := by
  induction h generalizing more with
  | begin => exact ⟨fun i hi => absurd hi (Nat.not_lt_zero i), count, hf⟩
  | @step bs n m m' _ hstep ih =>
    obtain ⟨hrun, count, ht⟩ := ih hf
    have hl : m.exhaustedLimit? = none := by
      cases hl : m.exhaustedLimit? with
      | none => rfl
      | some limit => simp [Machine.step, hl] at hstep
    have hl' := exhaustedLimit?_of_none ht.limit_eq
    obtain ⟨ho, ht'⟩ := ht.step code hl hl' fun var hu => by rw [hstep] at hu; cases hu
    rw [hstep] at ho ht'
    refine ⟨fun i hi => ?_, _, ht'⟩
    rcases Nat.lt_succ_iff_lt_or_eq.mp hi with hi | rfl
    · exact hrun i hi
    · exact ho
  | fail _ hstep he ih =>
    obtain ⟨hrun, count, ht⟩ := ih hf
    refine ⟨hrun, count, ?_⟩
    rcases step_failed hstep he with ⟨-, -, -, rfl⟩ | ⟨rfl, -⟩
    · exact ht
    · exact ht.of_tick
  | @bind bs n m var v _ hvar ih =>
    have hf' : Twin (fun id => (bs.lookup id).or (if id = var then some v else more id)) none
        count m₀ full := by
      refine hf.congr fun id => ?_
      rw [List.lookup_append, Option.or_assoc, List.lookup_cons]
      by_cases hid : id = var
      · simp [hid]
      · have hb : (id == var) = false := beq_eq_false_iff_ne.mpr hid
        simp [hid, hb]
    obtain ⟨hrun, count, ht⟩ := ih hf'
    exact ⟨hrun, count, ht.define hvar⟩
  | limit limit _ ih =>
    obtain ⟨hrun, count, ht⟩ := ih hf
    exact ⟨hrun, count, ht.of_limit limit⟩

/-- The same state but for the count of instructions. Globals are the same if they give every name
the same value. -/
structure SameState (m m' : Machine) : Prop where
  heap : m'.heap = m.heap
  globals : ∀ id, m'.globals.get? id = m.globals.get? id
  primitives : m'.primitives = m.primitives
  regs : m'.regs = m.regs
  depth : m'.depth = m.depth
  stats : { m'.stats with instructions := 0 } = { m.stats with instructions := 0 }
  limit : m'.limit = m.limit

theorem Twin.sameState {limit : Option Nat} {count : Nat}
    (h : Twin (fun _ => none) limit count m m') (hl : m.limit = limit) : SameState m m' := by
  cases h with
  | intro g hg =>
    exact ⟨rfl, fun id => (hg id).trans (Option.or_none), rfl, rfl, rfl, rfl, hl.symm⟩

end Machine

/-- A step that fails without being fatal leaves everything as it was, but for the instruction it
counts if the limit allows one. So a run that failed, was given the bindings it lacked and had its
limit lifted goes through the states of the run that had them all along and no limit. -/
theorem nonfatal_failure_is_resumable (m : Machine) (code : Code) :
    (m.Candid → ∀ e m', m.step code = (.error e, m') → e.isFatal = false →
      (∃ limit, e = .instructionLimitExceeded limit ∧ m' = m) ∨ e.OfProgram ∧ m' = m.tick) ∧
    ∀ bs n m', m.Mended code bs n m' →
      ∀ g : Globals, (∀ id, g.get? id = (m.globals.get? id).or (bs.lookup id)) →
        let full := { m with globals := g, limit := none }
        let freed := { m' with limit := none }
        (∀ i < n, ((full.after code i).step code).1 = .ok .running) ∧
        ∀ k, Machine.SameState (freed.after code k) (full.after code (n + k)) ∧
          ((full.after code (n + k)).step code).1 = ((freed.after code k).step code).1 := by
  refine ⟨fun hc e m' hstep he => ?_, fun bs n m' hm g hg => ?_⟩
  · rcases Machine.step_failed hstep he with ⟨limit, -, rfl, rfl⟩ | ⟨rfl, hp | ⟨p, hp, args, hr⟩⟩
    · exact .inl ⟨limit, rfl, rfl⟩
    · exact .inr ⟨hp, rfl⟩
    · exact .inr ⟨(hc p hp args e hr).ofProgram, rfl⟩
  · intro full freed
    have hfull : Machine.Twin (fun id => (bs.lookup id).or none) none m.stats.instructions m full :=
      .intro g fun id => by rw [hg, Option.or_none]
    obtain ⟨hrun, count, ht⟩ := hm.twin hfull
    refine ⟨hrun, fun k => ?_⟩
    obtain ⟨count', hk⟩ := (ht.of_limit none).after rfl k
    have hl : (freed.after code k).limit = none := Machine.after_limit freed code k
    exact ⟨hk.sameState hl, (hk.step code (Machine.exhaustedLimit?_of_none hl)
      (Machine.exhaustedLimit?_of_none hk.limit_eq) fun _ _ => rfl).1⟩

/-- Reads variable 0 and halts, after an instruction that needs nothing. -/
def readCode : Code := ⟨#[.halt, .refer 0 0, .constant .nil 1], #[]⟩

/-- Two instructions are allowed, and variable 0 has no value. -/
def hasty : Machine :=
  { heap := ⟨1, #[], 0, 1⟩, primitives := #[⟨5, .atLeast 0, Inspection.refuse⟩], regs := { x := 2 },
    limit := some 2 }

/-- The same machine at the variable, before and after the step that fails. -/
def hastyAt (count : Nat) : Machine :=
  { hasty with regs := { a := .nil, x := 1 }, stats := { instructions := count } }

theorem nonfatal_failure_is_resumable_late_binding :
    (hastyAt 1).Candid ∧
    (hastyAt 1).step readCode = (.error (.unboundVariable 0), hastyAt 2) ∧
    (hastyAt 1).tick = hastyAt 2 ∧
    ∃ m', hasty.Mended readCode [(0, .int 7)] 1 m' ∧ m'.stats.instructions = 2 ∧
      let full := { hasty with globals := ⟨[(0, .int 7)]⟩, limit := none }
      let freed := { m' with limit := none }
      Machine.SameState (freed.after readCode 1) (full.after readCode 2) ∧
        ((freed.after readCode 1).step readCode).1 = .ok (.halted (.int 7)) := by
  have hc : (hastyAt 1).Candid := by
    intro p hp args e he
    simp only [hastyAt, hasty, List.mem_toArray, List.mem_singleton] at hp
    subst hp
    cases he
    trivial
  have hstep : hasty.step readCode = (.ok .running, hastyAt 1) := rfl
  have hfail : (hastyAt 1).step readCode = (.error (.unboundVariable 0), hastyAt 2) := rfl
  have hlimit : (hastyAt 2).step readCode = (.error (.instructionLimitExceeded 2), hastyAt 2) := rfl
  have hbegin : hasty.Mended readCode [] 0 hasty := .begin
  have hm : hasty.Mended readCode [(0, .int 7)] 1
      { hastyAt 2 with globals := ⟨[(0, .int 7)]⟩ } :=
    (((hbegin.step hstep).fail hfail rfl).fail hlimit rfl).bind (.int 7) rfl
  have hall := (nonfatal_failure_is_resumable hasty readCode).2 _ _ _ hm ⟨[(0, .int 7)]⟩
    fun _ => rfl
  refine ⟨hc, hfail, ?_, _, hm, rfl, (hall.2 1).1, rfl⟩
  rcases (nonfatal_failure_is_resumable (hastyAt 1) readCode).1 hc _ _ hfail rfl with
    ⟨_, h, -⟩ | ⟨-, h⟩
  · cases h
  · exact h.symm

end ClosureMachine
