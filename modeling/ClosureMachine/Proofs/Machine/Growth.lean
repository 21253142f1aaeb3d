import ClosureMachine.Proofs.Code.Growth
import ClosureMachine.Proofs.Machine.Recovery

/-!
Running code that has grown. An instruction looks into the code by ids: its own, and those of
parameter lists that it finds in closures and environment frames. An id that means something keeps
its meaning when code is added, so a step can change only if it failed because an id meant nothing,
and such a failure says that the code is malformed (`step_grows`).

The main statement is `growth_keeps_steps`. It makes no assumption about the machine, so it holds of
whatever earlier runs have left in the arena and in the globals.
-/

namespace ClosureMachine

/-! ## Additions -/

/-- What can be added to code. -/
inductive Code.Addition where
  | node (n : Node)
  | formals (names : List SymbolId)

namespace Code

def add (c : Code) : Addition → Code
  | .node n => (c.append n).2
  | .formals names => (c.addFormals names).2

/-- Add one thing after the other. -/
def addAll (c : Code) (additions : List Addition) : Code := additions.foldl add c

theorem grows_add (c : Code) (x : Addition) : c.Grows (c.add x) := by
  cases x with
  | node n => exact c.grows_append n
  | formals names => exact ⟨List.prefix_refl _, by simp [add, addFormals]⟩

theorem grows_addAll (c : Code) (additions : List Addition) : c.Grows (c.addAll additions) := by
  induction additions generalizing c with
  | nil => exact .refl c
  | cons x additions ih => exact (c.grows_add x).trans (ih (c.add x))

end Code

/-! ## Actions -/

/-- The search for a variable goes the same way, unless it met an unknown parameter list. -/
theorem Binding.search_grows {c c' : Code} (hg : c.Grows c') (heap : Heap) (var : SymbolId)
    (fuel : Nat) (env : Option EnvRef) (h : search heap c var fuel env ≠ .broken) :
    search heap c' var fuel env = search heap c var fuel env := by
  induction fuel generalizing env with
  | zero => cases env <;> rfl
  | succ fuel ih =>
    cases env with
    | none => rfl
    | some env =>
      simp only [search] at h ⊢
      cases hl : EnvFrame.load? heap env with
      | none => rfl
      | some frame =>
        simp only [hl] at h ⊢
        cases hf : c.formals? frame.names with
        | none => simp [hf] at h
        | some names =>
          simp only [hf, hg.formals? hf] at h ⊢
          cases hi : names.idxOf? var with
          | some index => rfl
          | none =>
            simp only [hi] at h
            exact ih frame.parent h

/-- The outcome does not say that the code is malformed. -/
def Sane {α : Type} (o : Except MachineError α) : Prop := ∀ cause, o ≠ .error (.malformed cause)

namespace Machine

variable {m : Machine} {c c' : Code}

theorem find_grows (hg : c.Grows c') {var : SymbolId}
    (h : Binding.find m.heap c m.regs.e var ≠ .broken) :
    Binding.find m.heap c' m.regs.e var = Binding.find m.heap c m.regs.e var :=
  Binding.search_grows hg m.heap var (m.heap.used + 1) m.regs.e h

theorem lookup_grows (hg : c.Grows c') {var : SymbolId} (h : Sane (m.lookup c var)) :
    m.lookup c' var = m.lookup c var := by
  have hfind : Binding.find m.heap c m.regs.e var ≠ .broken := by
    intro hb
    exact h .staleEnvironment (by simp only [lookup, hb])
  simp only [lookup, find_grows hg hfind]

theorem assign_grows (hg : c.Grows c') {var : SymbolId} {v : Value}
    (h : Sane (m.assign c var v).1) : m.assign c' var v = m.assign c var v := by
  have hfind : Binding.find m.heap c m.regs.e var ≠ .broken := by
    intro hb
    exact h .staleEnvironment (by simp only [assign, hb])
  simp only [assign, find_grows hg hfind]

theorem applyClosure_grows (hg : c.Grows c') {ref : Ref Closure}
    (h : Sane (m.applyClosure c ref).1) : m.applyClosure c' ref = m.applyClosure c ref := by
  cases hc : m.heap.get? ref with
  | none => simp only [applyClosure, hc]
  | some closure =>
    cases hf : c.formals? closure.formals with
    | none =>
      exact absurd (by simp only [applyClosure, hc, hf]) (h (.unknownFormals closure.formals))
    | some names => simp only [applyClosure, hc, hf, hg.formals? hf]

theorem apply_grows (hg : c.Grows c') (h : Sane (m.apply c).1) : m.apply c' = m.apply c := by
  unfold apply at h ⊢
  split
  · next ref ha => exact applyClosure_grows hg (by simpa only [ha] using h)
  · rfl
  · rfl
  · rfl

theorem Sane.of_andGoto {r : Result Unit} {next : NodeId} (h : Sane (andGoto next r).1) :
    Sane r.1 := by
  intro cause hr
  exact h cause (fst_andGoto_error hr next)

theorem Sane.of_andContinue {r : Result Unit} (h : Sane (andContinue r).1) : Sane r.1 := by
  intro cause hr
  obtain ⟨o, m⟩ := r
  cases hr
  exact h cause rfl

/-! ## Instructions and steps -/

theorem execute_grows (hg : c.Grows c') {n : Node} (h : Sane (m.execute c n).1) :
    m.execute c' n = m.execute c n := by
  cases n with
  | refer var next =>
    have hv : Sane (m.lookup c var) := fun cause hv => h cause (by simp only [execute, hv])
    simp only [execute, lookup_grows hg hv]
  | assign var next =>
    simp only [execute]
    rw [assign_grows hg (Sane.of_andGoto h)]
  | nuate stack var =>
    cases var with
    | none => rfl
    | some var =>
      have hv : Sane (m.lookup c var) := fun cause hv => h cause (by simp only [execute, hv])
      simp only [execute, lookup_grows hg hv]
  | apply =>
    simp only [execute]
    rw [apply_grows hg (Sane.of_andContinue h)]
  | _ => rfl

/-- A step that does not find the code malformed is the same step when code has been added. -/
theorem step_grows (hg : c.Grows c') (h : Sane (m.step c).1) : m.step c' = m.step c := by
  cases hl : m.exhaustedLimit? with
  | some limit => simp only [step, hl]
  | none =>
    cases hn : c.node? m.regs.x with
    | none => exact absurd (by simp only [step, hl, hn]) (h (.outOfRange m.regs.x c.size))
    | some n =>
      rw [step_eq_execute hl hn] at h ⊢
      rw [step_eq_execute hl (hg.node? hn)]
      exact execute_grows hg h

/-! ## Runs -/

/-- The state after `k` steps, where step `i` is taken over `codes i`. -/
def afterOver (codes : Nat → Code) : Nat → Machine → Machine
  | 0, m => m
  | k + 1, m => ((afterOver codes k m).step (codes k)).2

/-- It makes no difference when the code grows. -/
theorem afterOver_grows {codes : Nat → Code} (hg : ∀ i, c.Grows (codes i)) {k : Nat}
    (h : ∀ i < k, Sane ((m.after c i).step c).1) : m.afterOver codes k = m.after c k := by
  induction k with
  | zero => rfl
  | succ k ih =>
    have hk : ((m.after c k).step (codes k)) = (m.after c k).step c :=
      step_grows (hg k) (h k (Nat.lt_succ_self k))
    rw [afterOver, after, ih fun i hi => h i (Nat.lt_succ_of_lt hi), hk]

theorem proceed_grows (hg : c.Grows c') (expired : Nat → Bool) (fuel : Nat)
    (h : ∀ cause, (proceed c expired fuel m).1 ≠ some (.error (.malformed cause))) :
    proceed c' expired fuel m = proceed c expired fuel m := by
  induction fuel generalizing m with
  | zero => rfl
  | succ fuel ih =>
    simp only [proceed] at h ⊢
    split
    · rfl
    · next hclock =>
      rw [if_neg hclock] at h
      have hs : Sane (m.step c).1 := by
        intro cause hs
        rcases hm : m.step c with ⟨o, m₁⟩
        rw [hm] at hs h
        cases hs
        exact h cause rfl
      rw [step_grows hg hs]
      generalize m.step c = r at h
      obtain ⟨o, m₁⟩ := r
      cases o with
      | error e => rfl
      | ok p =>
        cases p with
        | halted v => rfl
        | running => exact ih h

end Machine

/-- Adding instructions and parameter lists does not disturb what runs. A step that does not find
the code malformed has the same outcome and leaves the same state after any additions. So do any
number of steps, whenever in between the additions are made, and whole runs. -/
theorem growth_keeps_steps (m : Machine) (c : Code) :
    (∀ additions, (∀ cause, (m.step c).1 ≠ .error (.malformed cause)) →
      m.step (c.addAll additions) = m.step c) ∧
    (∀ (additions : Nat → List Code.Addition) (k : Nat),
      (∀ i < k, ∀ cause, ((m.after c i).step c).1 ≠ .error (.malformed cause)) →
        let codes := fun i => c.addAll (additions i)
        m.afterOver codes k = m.after c k ∧
          ∀ i < k, (m.afterOver codes i).step (codes i) = (m.after c i).step c) ∧
    ∀ additions entry expired fuel,
      (∀ cause, (m.runUntil c entry expired fuel).1 ≠ some (.error (.malformed cause))) →
        m.runUntil (c.addAll additions) entry expired fuel = m.runUntil c entry expired fuel := by
  refine ⟨fun additions h => ?_, fun additions k h => ?_, fun additions entry expired fuel h => ?_⟩
  · exact Machine.step_grows (c.grows_addAll additions) h
  · have hg : ∀ i, c.Grows (c.addAll (additions i)) := fun i => c.grows_addAll (additions i)
    refine ⟨Machine.afterOver_grows hg h, fun i hi => ?_⟩
    rw [Machine.afterOver_grows hg fun j hj => h j (Nat.lt_trans hj hi)]
    exact Machine.step_grows (hg i) (h i hi)
  · exact Machine.proceed_grows (c.grows_addAll additions) expired fuel h

/-- Entry 3 makes the procedure that answers its argument; entry 8 applies variable 1 to 7. -/
def echoCode : Code :=
  ⟨#[.halt, .ret, .refer 5 1, .close 0 2 0, .apply, .refer 1 4, .argument 5, .constant (.int 7) 6,
    .frame 0 7], #[[5]]⟩

/-- A machine that has made the procedure and bound it to variable 1. -/
def echoMachine : Machine :=
  { (({ heap := ⟨8, #[], 0, 1⟩ } : Machine).run echoCode 3 9).2 with
    globals := ⟨[(1, .closure ⟨⟨0, 1⟩⟩)]⟩ }

theorem growth_keeps_steps_echo :
    (∀ cause, (echoMachine.runUntil echoCode 8 (fun _ => false) 20).1 ≠
      some (.error (.malformed cause))) ∧
    echoMachine.runUntil (echoCode.addAll [.formals [5, 5], .node (.refer 9 9)]) 8
        (fun _ => false) 20 =
      echoMachine.runUntil echoCode 8 (fun _ => false) 20 ∧
    (echoMachine.runUntil echoCode 8 (fun _ => false) 20).1 = some (.ok (.int 7)) := by
  have hrun : (echoMachine.runUntil echoCode 8 (fun _ => false) 20).1 = some (.ok (.int 7)) := rfl
  have hsane : ∀ cause, (echoMachine.runUntil echoCode 8 (fun _ => false) 20).1 ≠
      some (.error (.malformed cause)) := by
    intro cause h
    rw [hrun] at h
    cases h
  exact ⟨hsane, (growth_keeps_steps echoMachine echoCode).2.2 _ 8 _ 20 hsane, hrun⟩

end ClosureMachine
