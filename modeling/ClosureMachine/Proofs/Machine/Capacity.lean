import ClosureMachine.Proofs.Machine.Recovery

/-!
The size of the arena. `Machine.resized c` is the machine with an arena of `c` blocks and everything
else as it is. Nothing but a request for blocks looks at the capacity, and a request that fits is
served alike in every larger arena. So an action of the machine runs out of memory, or it does the
same where there is more room (`Scaled`), and so does a step (`step_scaled`).

The main statement is `capacity_only_decides_success`: machines that differ in capacity alone go
through the same states until the smaller one runs out of memory.
-/

namespace ClosureMachine

/-! ## Requests for blocks -/

namespace Arena

variable {β α η ε : Type}

/-- The same arena with room for `c` blocks. -/
def resized (a : Arena β) (c : Nat) : Arena β := { a with capacity := c }

/-- The request was refused, or it was served alike in an arena of `c` blocks. -/
def Scaled (c : Nat) (r r' : Except ArenaError ε × Arena β) : Prop :=
  (∃ e a, r = (.error e, a)) ∨ ∃ x a, r = (.ok x, a) ∧ r' = (.ok x, a.resized c)

variable [Inhabited β] {a : Arena β} {c : Nat}

theorem allocate_scaled (hc : a.capacity ≤ c) (n : Nat) :
    Scaled c (a.allocate n) ((a.resized c).allocate n) := by
  rcases Nat.lt_or_ge a.remaining n with h | h
  · exact .inl ⟨_, _, allocate_of_full h⟩
  · have h' : n ≤ (a.resized c).remaining := by
      change n ≤ c - a.used
      rw [remaining] at h
      omega
    exact .inr ⟨_, _, allocate_of_fits h, allocate_of_fits h'⟩

theorem allocateRun_scaled (hc : a.capacity ≤ c) (front bytes : Nat) :
    Scaled c (a.allocateRun front bytes) ((a.resized c).allocateRun front bytes) := by
  unfold allocateRun
  split
  · exact .inl ⟨_, _, rfl⟩
  · exact allocate_scaled hc _

theorem alloc_scaled [Storable β α] (hc : a.capacity ≤ c) (x : α) :
    Scaled c (a.alloc x) ((a.resized c).alloc x) := by
  unfold alloc
  split
  · exact .inl ⟨_, _, rfl⟩
  · rcases allocate_scaled hc (Storable.blocks β α 1) with ⟨e, a', he⟩ | ⟨addr, a', he, he'⟩
    · exact .inl ⟨e, a', by rw [he]⟩
    · exact .inr ⟨_, _, by rw [he], by rw [he']; rfl⟩

theorem allocWithTail_scaled [Storable β η] [Storable β α] (hc : a.capacity ≤ c) (h : η)
    (xs : List α) : Scaled c (a.allocWithTail h xs) ((a.resized c).allocWithTail h xs) := by
  simp only [allocWithTail]
  split
  · exact .inl ⟨_, _, rfl⟩
  · rcases allocateRun_scaled hc (Storable.blocks β η 1) (xs.length * Storable.size β α)
      with ⟨e, a', he⟩ | ⟨addr, a', he, he'⟩
    · exact .inl ⟨e, a', by rw [he]⟩
    · exact .inr ⟨_, _, by rw [he], by rw [he']; rfl⟩

end Arena

/-! ## Reading -/

@[simp] theorem Arena.get?_resized {β α : Type} [Storable β α] (a : Arena β) (c : Nat) (r : Ref α) :
    (a.resized c).get? r = a.get? r := rfl

@[simp] theorem Arena.slice?_resized {β α : Type} [Storable β α] (a : Arena β) (c : Nat)
    (s : Slice α) : (a.resized c).slice? s = a.slice? s := rfl

section

variable (heap : Heap) (c : Nat)

@[simp] theorem CallFrame.load?_resized (top : FrameRef) :
    load? (heap.resized c) top = load? heap top := rfl

@[simp] theorem EnvFrame.load?_resized (env : EnvRef) :
    load? (heap.resized c) env = load? heap env := rfl

theorem Heap.setAt_resized (s : Slice Value) (i : Nat) (v : Value) :
    (heap.resized c).setAt s i v = ((heap.setAt s i v).1, (heap.setAt s i v).2.resized c) := by
  have hl : (heap.resized c).isLiveSlice s = heap.isLiveSlice s := rfl
  simp only [Arena.setAt, hl]
  repeat' split
  all_goals rfl

theorem CallFrame.chain?_resized (top : Option FrameRef) :
    chain? (heap.resized c) top = chain? heap top :=
  chain?_congr (load?_resized heap c) rfl top

theorem Binding.find_resized (code : Code) (env : Option EnvRef) (var : SymbolId) :
    find (heap.resized c) code env var = find heap code env var :=
  find_congr (EnvFrame.load?_resized heap c) rfl code env var

end

namespace Machine

variable {m : Machine} {code : Code} {c : Nat}

/-- The same machine with an arena of `c` blocks. -/
def resized (m : Machine) (c : Nat) : Machine := { m with heap := m.heap.resized c }

/-- The same result with an arena of `c` blocks. -/
def resizedResult {α : Type} (c : Nat) (r : Result α) : Result α := (r.1, r.2.resized c)

/-! ## Actions that ask for no blocks -/

section

variable (m : Machine) (c : Nat)

@[simp] theorem resized_heap : (m.resized c).heap = m.heap.resized c := rfl

@[simp] theorem resized_regs : (m.resized c).regs = m.regs := rfl

@[simp] theorem resized_depth : (m.resized c).depth = m.depth := rfl

@[simp] theorem resized_globals : (m.resized c).globals = m.globals := rfl

@[simp] theorem resized_primitive? (id : PrimitiveId) :
    (m.resized c).primitive? id = m.primitive? id := rfl

theorem resized_popFrame : (m.resized c).popFrame = resizedResult c m.popFrame := by
  simp only [popFrame, resized_regs, resized_heap, CallFrame.load?_resized, Arena.slice?_resized]
  repeat' split
  all_goals rfl

theorem resized_lookup (code : Code) (var : SymbolId) :
    (m.resized c).lookup code var = m.lookup code var := by
  simp only [lookup, resized_regs, resized_heap, Binding.find_resized, Arena.slice?_resized,
    resized_globals]

theorem resized_assign (code : Code) (var : SymbolId) (v : Value) :
    (m.resized c).assign code var v = resizedResult c (m.assign code var v) := by
  simp only [assign, resized_regs, resized_heap, Binding.find_resized, resized_globals]
  split
  · next s i _ =>
    rw [Heap.setAt_resized]
    rcases m.heap.setAt s i v with ⟨e | u, heap⟩ <;> rfl
  · split <;> rfl
  · rfl
  · rfl

theorem resized_reinstate (stack : Option FrameRef) :
    (m.resized c).reinstate stack none = resizedResult c (m.reinstate stack none) := by
  have hstate : (m.resized c).reinstated stack = (m.reinstated stack).resized c := by
    simp only [reinstated, resized_heap, CallFrame.chain?_resized]
    rfl
  rw [reinstate_none_eq, reinstate_none_eq, resized_heap, CallFrame.chain?_resized, hstate,
    resized_popFrame]
  split <;> rfl

theorem resized_applyContinuation (ref : Ref Continuation) :
    (m.resized c).applyContinuation ref = resizedResult c (m.applyContinuation ref) := by
  simp only [applyContinuation, resized_heap, Arena.get?_resized, resized_regs]
  cases m.heap.get? ref with
  | none => rfl
  | some k =>
    simp only
    split
    · next v _ => exact resized_popFrame (m.thrown k v) c
    · rfl

theorem resized_applyPrimitive (id : PrimitiveId) :
    (m.resized c).applyPrimitive id = resizedResult c (m.applyPrimitive id) := by
  simp only [applyPrimitive, resized_primitive?, resized_regs]
  cases m.primitive? id with
  | none => rfl
  | some p =>
    cases ha : p.arity.accepts m.regs.r.length with
    | false =>
      simp only [ha, Bool.false_eq_true, ↓reduceIte]
      rfl
    | true =>
      simp only [ha, ↓reduceIte]
      cases p.run m.regs.r with
      | error e => rfl
      | ok v => exact resized_popFrame (m.setAccumulator v) c

end

/-! ## Actions and steps -/

/-- The action ran out of memory, or it did the same with an arena of `c` blocks. -/
def Scaled {α : Type} (c : Nat) (r r' : Result α) : Prop :=
  (∃ cause m, r = (.error (.outOfMemory cause), m)) ∨ r' = resizedResult c r

theorem Scaled.andGoto {r r' : Result Unit} (h : Scaled c r r') (next : NodeId) :
    Scaled c (andGoto next r) (andGoto next r') := by
  rcases h with ⟨cause, m, rfl⟩ | rfl
  · exact .inl ⟨cause, m, rfl⟩
  · obtain ⟨e | u, m⟩ := r <;> exact .inr rfl

theorem Scaled.andContinue {r r' : Result Unit} (h : Scaled c r r') :
    Scaled c (andContinue r) (andContinue r') := by
  rcases h with ⟨cause, m, rfl⟩ | rfl
  · exact .inl ⟨cause, m, rfl⟩
  · obtain ⟨e | u, m⟩ := r <;> exact .inr rfl

theorem makeClosure_scaled (hc : m.heap.capacity ≤ c) (formals : FormalsId) (body : NodeId) :
    Scaled c (m.makeClosure formals body) ((m.resized c).makeClosure formals body) := by
  simp only [makeClosure, resized_regs, resized_heap]
  rcases Arena.alloc_scaled hc (Closure.mk formals body m.regs.e) with
    ⟨e, heap, he⟩ | ⟨ref, heap, he, he'⟩
  · exact .inl ⟨e, { m with heap }, by rw [he]⟩
  · right
    rw [he, he']
    rfl

theorem capture_scaled (hc : m.heap.capacity ≤ c) :
    Scaled c m.capture (m.resized c).capture := by
  simp only [capture, resized_regs, resized_heap, resized_depth]
  rcases Arena.alloc_scaled hc (Continuation.mk m.regs.s m.depth) with
    ⟨e, heap, he⟩ | ⟨ref, heap, he, he'⟩
  · exact .inl ⟨e, { m with heap }, by rw [he]⟩
  · right
    rw [he, he']
    rfl

theorem pushFrame_scaled (hc : m.heap.capacity ≤ c) (returnTo : NodeId) :
    Scaled c (m.pushFrame returnTo) ((m.resized c).pushFrame returnTo) := by
  simp only [pushFrame, resized_regs, resized_heap, CallFrame.push]
  rcases Arena.allocWithTail_scaled hc
      (FrameHeader.mk returnTo (.ofRef? m.regs.e) (.ofRef? m.regs.s)
        (min m.regs.r.length (wordLimit - 1))) m.regs.r with
    ⟨e, heap, he⟩ | ⟨ref, heap, he, he'⟩
  · exact .inl ⟨e, { m with heap }, by rw [he]⟩
  · right
    rw [he, he']
    rfl

theorem applyClosure_scaled (hc : m.heap.capacity ≤ c) (ref : Ref Closure) :
    Scaled c (m.applyClosure code ref) ((m.resized c).applyClosure code ref) := by
  simp only [applyClosure, resized_heap, Arena.get?_resized, resized_regs]
  cases m.heap.get? ref with
  | none => exact .inr rfl
  | some closure =>
    simp only
    cases code.formals? closure.formals with
    | none => exact .inr rfl
    | some names =>
      by_cases ha : names.length = m.regs.r.length
      · simp only [ne_eq, ha, not_true_eq_false, ↓reduceIte, EnvFrame.bind]
        rcases Arena.allocWithTail_scaled hc
            (EnvHeader.mk closure.formals (.ofRef? closure.env)
              (min m.regs.r.length (wordLimit - 1))) m.regs.r with
          ⟨e, heap, he⟩ | ⟨env, heap, he, he'⟩
        · exact .inl ⟨e, { m with heap }, by rw [he]⟩
        · right
          rw [he, he']
          rfl
      · simp only [ne_eq, ha, not_false_eq_true, ↓reduceIte]
        exact .inr rfl

theorem apply_scaled (hc : m.heap.capacity ≤ c) :
    Scaled c (m.apply code) ((m.resized c).apply code) := by
  simp only [apply, resized_regs]
  split
  · exact applyClosure_scaled hc _
  · exact .inr (resized_applyContinuation m c _)
  · exact .inr (resized_applyPrimitive m c _)
  · exact .inr rfl

theorem execute_scaled (hc : m.heap.capacity ≤ c) (code : Code) (n : Node) :
    Scaled c (m.execute code n) ((m.resized c).execute code n) := by
  cases n with
  | halt => exact .inr rfl
  | refer var next =>
    simp only [execute, resized_lookup]
    cases m.lookup code var <;> exact .inr rfl
  | constant v next => exact .inr rfl
  | close formals body next => exact (makeClosure_scaled hc formals body).andGoto next
  | test onTrue onFalse => exact .inr rfl
  | assign var next =>
    have h : Scaled c (m.assign code var m.regs.a) ((m.resized c).assign code var m.regs.a) :=
      .inr (resized_assign m c code var m.regs.a)
    exact h.andGoto next
  | conti next => exact (capture_scaled hc).andGoto next
  | nuate stack var =>
    have h (m : Machine) : Scaled c (m.reinstate stack none) ((m.resized c).reinstate stack none) :=
      .inr (resized_reinstate m c stack)
    cases var with
    | none => exact (h m).andContinue
    | some var =>
      simp only [execute, resized_lookup]
      cases m.lookup code var with
      | error e => exact .inr rfl
      | ok v => exact (h (m.setAccumulator v)).andContinue
  | frame returnTo next => exact (pushFrame_scaled hc returnTo).andGoto next
  | argument next => exact .inr rfl
  | apply => exact (apply_scaled hc).andContinue
  | ret =>
    have h : Scaled c m.popFrame (m.resized c).popFrame := .inr (resized_popFrame m c)
    exact h.andContinue

/-- A step runs out of memory, or it is the same step where there is more room. -/
theorem step_scaled (hc : m.heap.capacity ≤ c) (code : Code) :
    Scaled c (m.step code) ((m.resized c).step code) := by
  have hl : (m.resized c).exhaustedLimit? = m.exhaustedLimit? := rfl
  simp only [step, hl, resized_regs]
  split
  · exact .inr rfl
  · split
    · exact .inr rfl
    · exact execute_scaled (m := m.tick) hc code _

/-! ## Runs -/

/-- The outcome says that there was no room. -/
def OutOfMemory {α : Type} (o : Except MachineError α) : Prop :=
  ∃ cause, o = .error (.outOfMemory cause)

theorem Scaled.eq_of_fits {α : Type} {r r' : Result α} (h : Scaled c r r')
    (hr : ¬ OutOfMemory r.1) : r' = resizedResult c r := by
  rcases h with ⟨cause, m, rfl⟩ | h
  · exact absurd ⟨cause, rfl⟩ hr
  · exact h

/-- A machine with the capacity it has is itself, so a step does not change the capacity. -/
theorem step_capacity (h : ¬ OutOfMemory (m.step code).1) :
    (m.step code).2.heap.capacity = m.heap.capacity := by
  have hself : m.step code = resizedResult m.heap.capacity (m.step code) :=
    (step_scaled (m := m) (Nat.le_refl _) code).eq_of_fits h
  rw [hself]
  rfl

/-- The states of the larger machine are those of the smaller, until that runs out of memory. -/
theorem after_resized (hc : m.heap.capacity ≤ c) (code : Code) {k : Nat}
    (h : ∀ i < k, ¬ OutOfMemory ((m.after code i).step code).1) :
    (m.after code k).heap.capacity = m.heap.capacity ∧
      (m.resized c).after code k = (m.after code k).resized c := by
  induction k with
  | zero => exact ⟨rfl, rfl⟩
  | succ k ih =>
    obtain ⟨hcap, heq⟩ := ih fun i hi => h i (Nat.lt_succ_of_lt hi)
    have hk := h k (Nat.lt_succ_self k)
    have hle : (m.after code k).heap.capacity ≤ c := by rwa [hcap]
    refine ⟨(step_capacity hk).trans hcap, ?_⟩
    rw [after, after, heq, (step_scaled hle code).eq_of_fits hk]
    rfl

theorem after_succ (m : Machine) (code : Code) (k : Nat) :
    m.after code (k + 1) = (m.step code).2.after code k := by
  induction k with
  | zero => rfl
  | succ k ih => rw [after, ih, after]

/-- A run that failed went on until a step failed. -/
theorem proceed_eq_error {fuel : Nat} {e : MachineError} {m' : Machine}
    (h : proceed code (fun _ => false) fuel m = (some (.error e), m')) :
    ∃ n, (∀ i < n, ((m.after code i).step code).1 = .ok .running) ∧
      (m.after code n).step code = (.error e, m') := by
  induction fuel generalizing m with
  | zero => cases h
  | succ fuel ih =>
    simp only [proceed, Bool.and_false, Bool.false_eq_true, ↓reduceIte] at h
    rcases hs : m.step code with ⟨o, m₁⟩
    rw [hs] at h
    cases o with
    | error e' =>
      cases h
      exact ⟨0, fun i hi => absurd hi (Nat.not_lt_zero i), hs⟩
    | ok p =>
      cases p with
      | halted v => cases h
      | running =>
        obtain ⟨n, hrun, hfail⟩ := ih h
        refine ⟨n + 1, fun i hi => ?_, ?_⟩
        · cases i with
          | zero => exact congrArg Prod.fst hs
          | succ i =>
            rw [after_succ, hs]
            exact hrun i (Nat.lt_of_succ_lt_succ hi)
        · rw [after_succ, hs]
          exact hfail

/-- A run ends for want of room, or it is the same run where there is more. -/
theorem proceed_resized (hc : m.heap.capacity ≤ c) (code : Code) (expired : Nat → Bool) (fuel : Nat)
    (h : ∀ cause, (proceed code expired fuel m).1 ≠ some (.error (.outOfMemory cause))) :
    proceed code expired fuel (m.resized c) =
      ((proceed code expired fuel m).1, (proceed code expired fuel m).2.resized c) := by
  induction fuel generalizing m with
  | zero => rfl
  | succ fuel ih =>
    have hn : (m.resized c).stats = m.stats := rfl
    simp only [proceed, hn] at h ⊢
    split
    · rfl
    · next hclock =>
      rw [if_neg hclock] at h
      have hfits : ¬ OutOfMemory (m.step code).1 := by
        rintro ⟨cause, hs⟩
        rcases hm : m.step code with ⟨o, m₁⟩
        rw [hm] at hs h
        cases hs
        exact h cause rfl
      have hle : (m.step code).2.heap.capacity ≤ c :=
        Nat.le_trans (Nat.le_of_eq (step_capacity hfits)) hc
      rw [(step_scaled hc code).eq_of_fits hfits]
      generalize m.step code = r at h hle ⊢
      obtain ⟨o, m₁⟩ := r
      cases o with
      | error e => rfl
      | ok p =>
        cases p with
        | halted v => rfl
        | running => exact ih hle h

/-- A step that goes on has executed one instruction. -/
theorem step_counts (h : (m.step code).1 = .ok .running) :
    (m.step code).2.stats.instructions = m.stats.instructions + 1 := by
  cases hl : m.exhaustedLimit? with
  | some limit => simp [step, hl] at h
  | none =>
    cases hn : code.node? m.regs.x with
    | none => simp [step, hl, hn] at h
    | some n =>
      have hcount := ((Twin.refl m).step code hl hl fun _ _ => rfl).2.count_eq
      simpa [countAfter, hn] using hcount

theorem after_counts {n : Nat} (h : ∀ i < n, ((m.after code i).step code).1 = .ok .running) :
    (m.after code n).stats.instructions = m.stats.instructions + n := by
  induction n with
  | zero => rfl
  | succ n ih =>
    rw [after, step_counts (h n (Nat.lt_succ_self n)), ih fun i hi => h i (Nat.lt_succ_of_lt hi)]
    rfl

end Machine

/-- The capacity decides whether there is a result, never which. As long as the machine does not run
out of memory, a machine with more room is in the same state after as many steps. A run that ends
otherwise ends alike with more room; and if instruction `n + 1` finds no room, the larger machine is
after `n` instructions in the state that the smaller one had before it. -/
theorem capacity_only_decides_success (m : Machine) {c : Nat} (hc : m.heap.capacity ≤ c)
    (code : Code) (entry : NodeId) :
    let small := m.start entry
    let large := (m.resized c).start entry
    (∀ k, (∀ i < k, ¬ Machine.OutOfMemory ((small.after code i).step code).1) →
      large.after code k = (small.after code k).resized c ∧
      ∀ i < k, ((large.after code i).step code).1 = ((small.after code i).step code).1) ∧
    (∀ fuel, (∀ cause, (m.run code entry fuel).1 ≠ some (.error (.outOfMemory cause))) →
      (m.resized c).run code entry fuel =
        ((m.run code entry fuel).1, (m.run code entry fuel).2.resized c)) ∧
    ∀ fuel cause m', m.run code entry fuel = (some (.error (.outOfMemory cause)), m') →
      ∃ n, m'.stats.instructions = n + 1 ∧ m' = (small.after code n).tick ∧
        large.after code n = (small.after code n).resized c ∧
        ∀ i < n, ((large.after code i).step code).1 = .ok .running := by
  intro small large
  have hsmall : small.heap.capacity ≤ c := hc
  have hstates : ∀ k, (∀ i < k, ¬ Machine.OutOfMemory ((small.after code i).step code).1) →
      large.after code k = (small.after code k).resized c ∧
      ∀ i < k, ((large.after code i).step code).1 = ((small.after code i).step code).1 := by
    intro k hk
    refine ⟨(Machine.after_resized hsmall code hk).2, fun i hi => ?_⟩
    obtain ⟨hcap, heq⟩ :=
      Machine.after_resized hsmall code fun j hj => hk j (Nat.lt_trans hj hi)
    have hle : (small.after code i).heap.capacity ≤ c := Nat.le_trans (Nat.le_of_eq hcap) hsmall
    rw [show large.after code i = (small.after code i).resized c from heq,
      (Machine.step_scaled hle code).eq_of_fits (hk i hi)]
    rfl
  refine ⟨hstates, fun fuel hfits => ?_, fun fuel cause m' hrun => ?_⟩
  · exact Machine.proceed_resized hsmall code (fun _ => false) fuel hfits
  · obtain ⟨n, hrunning, hfail⟩ := Machine.proceed_eq_error hrun
    have hfits : ∀ i < n, ¬ Machine.OutOfMemory ((small.after code i).step code).1 := by
      rintro i hi ⟨cause, hout⟩
      rw [hrunning i hi] at hout
      cases hout
    obtain ⟨heq, houts⟩ := hstates n hfits
    rcases Machine.step_failed hfail rfl with ⟨_, -, hlimit, -⟩ | ⟨rfl, -⟩
    · cases hlimit
    · refine ⟨n, ?_, rfl, heq, fun i hi => (houts i hi).trans (hrunning i hi)⟩
      have hcount := Machine.after_counts hrunning
      change (small.after code n).stats.instructions + 1 = n + 1
      rw [hcount]
      change 0 + n + 1 = n + 1
      omega

/-- From entry 1 frames are pushed without end; from entry 2 a closure is made. -/
def pilingCode : Code := ⟨#[.halt, .frame 0 1, .close 0 0 0], #[[]]⟩

/-- A machine with a single block. -/
def cramped : Machine := { heap := ⟨1, #[], 0, 1⟩ }

theorem capacity_only_decides_success_cramped :
    cramped.heap.capacity ≤ 3 ∧
    ((cramped.resized 3).run pilingCode 2 9).1 = (cramped.run pilingCode 2 9).1 ∧
    (cramped.run pilingCode 2 9).1 = some (.ok (.closure ⟨⟨0, 1⟩⟩)) ∧
    (cramped.run pilingCode 1 9).1 = some (.error (.outOfMemory (.outOfMemory 1 0 1))) ∧
    ∃ n, (cramped.run pilingCode 1 9).2.stats.instructions = n + 1 ∧
      ((cramped.resized 3).start 1).after pilingCode n =
        ((cramped.start 1).after pilingCode n).resized 3 := by
  have hc : cramped.heap.capacity ≤ 3 := by decide
  have hclose : (cramped.run pilingCode 2 9).1 = some (.ok (.closure ⟨⟨0, 1⟩⟩)) := rfl
  have hfull : (cramped.run pilingCode 1 9).1 =
      some (.error (.outOfMemory (.outOfMemory 1 0 1))) := rfl
  obtain ⟨-, hsame, -⟩ := capacity_only_decides_success cramped hc pilingCode 2
  obtain ⟨-, -, hlast⟩ := capacity_only_decides_success cramped hc pilingCode 1
  obtain ⟨n, hn, -, heq, -⟩ := hlast 9 _ _ (Prod.ext hfull rfl)
  refine ⟨hc, ?_, hclose, hfull, n, hn, heq⟩
  rw [hsame 9 fun cause h => by rw [hclose] at h; cases h]

end ClosureMachine
