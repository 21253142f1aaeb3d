import ClosureMachine.Proofs.Machine.Capacity
import ClosureMachine.Proofs.Machine.Returns
import ClosureMachine.Proofs.Machine.StaleStacks

/-!
The limit on instructions cuts a run at the exact instruction. A step that the limit allows is the
same step as without a limit, state and all (`step_relimited`), so the states of the two runs are
the same until the limit is used up (`GoesOn.relimited`).

A run without a limit ends in one of two ways: an instruction is executed and is the last
(`EndsAt`), or control leaves the code (`StraysAt`). The instruction that does not exist is not
counted, while the last one is, and so the two differ by one in what the limit has to allow
(`limit_cuts_at_the_exact_instruction`).

There is a third way not to go on: an instruction is executed that does not return (`HangsAt`), and
no limit helps then. `limit_never_reached` is a host whose machine counts the frames of a circular
stack. Under a careful host, with host procedures that return, every instruction does.
-/

namespace ClosureMachine

namespace Machine

variable {m : Machine} {code : Code}

/-- `m` under another limit. -/
def relimited (m : Machine) (limit : Option Nat) : Machine := { m with limit }

/-! ## Steps under another limit -/

section

variable (m : Machine) (limit : Option Nat)

theorem relimited_self {m : Machine} {limit limit' : Option Nat} (h : m.limit = limit) :
    (m.relimited limit').relimited limit = m := by
  subst h
  rfl

@[simp] theorem relimited_regs : (m.relimited limit).regs = m.regs := rfl

@[simp] theorem relimited_stats : (m.relimited limit).stats = m.stats := rfl

theorem relimited_lookup (code : Code) (var : SymbolId) :
    (m.relimited limit).lookup code var = m.lookup code var := rfl

theorem relimited_assign (code : Code) (var : SymbolId) (v : Value) :
    (m.relimited limit).assign code var v =
      ((m.assign code var v).1, (m.assign code var v).2.relimited limit) := by
  have hfind : Binding.find (m.relimited limit).heap code (m.relimited limit).regs.e var =
      Binding.find m.heap code m.regs.e var := rfl
  simp only [assign, hfind]
  cases Binding.find m.heap code m.regs.e var with
  | slot values index =>
    simp only [relimited]
    split <;> rfl
  | free =>
    simp only [relimited]
    split <;> rfl
  | broken => rfl
  | endless => rfl

end

/-- An action that does not look at the limit does the same under another. -/
theorem Oblivious.relimited {α : Type} {f : Machine → Result α} (hf : Oblivious f) (m : Machine)
    (limit : Option Nat) : f (m.relimited limit) = ((f m).1, (f m).2.relimited limit) := by
  have hself := hf m m.globals m.limit m.stats.instructions
  have hcount : (f m).2.stats.instructions = m.stats.instructions :=
    congrArg (fun r => r.2.stats.instructions) hself
  have hstate : (f m).2.varied m.globals limit m.stats.instructions = (f m).2.relimited limit := by
    rw [varied, ← hf.globals m, ← hcount]
    rfl
  rw [← hstate]
  exact hf m m.globals limit m.stats.instructions

/-- The same result, with the limit of the state changed. -/
def relimitedResult {α : Type} (limit : Option Nat) (r : Result α) : Result α :=
  (r.1, r.2.relimited limit)

theorem andGoto_relimited (limit : Option Nat) (next : NodeId) (r : Result Unit) :
    andGoto next (relimitedResult limit r) = relimitedResult limit (andGoto next r) := by
  obtain ⟨_ | _, _⟩ := r <;> rfl

theorem andContinue_relimited (limit : Option Nat) (r : Result Unit) :
    andContinue (relimitedResult limit r) = relimitedResult limit (andContinue r) := by
  obtain ⟨_ | _, _⟩ := r <;> rfl

theorem execute_relimited (m : Machine) (limit : Option Nat) (code : Code) (n : Node) :
    (m.relimited limit).execute code n = relimitedResult limit (m.execute code n) := by
  cases n with
  | halt => rfl
  | refer var next =>
    simp only [execute, relimited_lookup]
    cases m.lookup code var <;> rfl
  | constant v next => rfl
  | close formals body next =>
    rw [execute, (oblivious_makeClosure formals body).relimited m limit]
    exact andGoto_relimited limit next _
  | test onTrue onFalse => rfl
  | assign var next =>
    rw [execute, relimited_assign]
    exact andGoto_relimited limit next _
  | conti next =>
    rw [execute, oblivious_capture.relimited m limit]
    exact andGoto_relimited limit next _
  | nuate stack var =>
    cases var with
    | none =>
      rw [execute, (oblivious_reinstate stack).relimited m limit]
      exact andContinue_relimited limit _
    | some var =>
      simp only [execute, relimited_lookup]
      cases m.lookup code var with
      | error e => rfl
      | ok v =>
        have hv := (oblivious_reinstate stack).relimited (m.setAccumulator v) limit
        exact (congrArg andContinue hv).trans (andContinue_relimited limit _)
  | frame returnTo next =>
    rw [execute, (oblivious_pushFrame returnTo).relimited m limit]
    exact andGoto_relimited limit next _
  | argument next => rfl
  | apply =>
    rw [execute, (oblivious_apply code).relimited m limit]
    exact andContinue_relimited limit _
  | ret =>
    rw [execute, oblivious_popFrame.relimited m limit]
    exact andContinue_relimited limit _

/-- Limits that both allow a step do not show in it. -/
theorem step_relimited {limit : Option Nat} (hl : m.exhaustedLimit? = none)
    (hl' : (m.relimited limit).exhaustedLimit? = none) (code : Code) :
    (m.relimited limit).step code = relimitedResult limit (m.step code) := by
  rw [step, step, hl, hl', relimited_regs]
  cases code.node? m.regs.x with
  | none => rfl
  | some n => exact execute_relimited m.tick limit code n

theorem exhaustedLimit?_of_lt {l : Nat} (h : m.stats.instructions < l) :
    (m.relimited (some l)).exhaustedLimit? = none := by
  refine exhaustedLimit?_eq_none_iff.mpr fun l' hl' => ?_
  cases hl'
  exact h

/-- At the limit the step is refused, and nothing changes. -/
theorem step_of_exhausted {l : Nat} (h : m.stats.instructions = l) (code : Code) :
    (m.relimited (some l)).step code =
      (.error (.instructionLimitExceeded l), m.relimited (some l)) := by
  have hl : (m.relimited (some l)).exhaustedLimit? = some l := by
    simp [exhaustedLimit?, relimited, Option.filter, h]
  rw [step, hl]

/-! ## Runs -/

/-- The first `n` steps from `m` go on. -/
def GoesOn (m : Machine) (code : Code) (n : Nat) : Prop :=
  ∀ i < n, ((m.after code i).step code).1 = .ok .running

/-- The outcome of a run whose last step leads to this. -/
def final? : Except MachineError Progress → Option (Except MachineError Value)
  | .ok .running => none
  | .ok (.halted v) => some (.ok v)
  | .error e => some (.error e)

/-- Instruction number `n` of the run from `m` is executed, and the run ends with it. -/
structure EndsAt (m : Machine) (code : Code) (n : Nat) (o : Except MachineError Value)
    (m' : Machine) : Prop where
  returns : o ≠ .error .endless
  positive : 0 < n
  goesOn : m.GoesOn code (n - 1)
  fetched : ∃ node, code.node? (m.after code (n - 1)).regs.x = some node
  outcome : final? ((m.after code (n - 1)).step code).1 = some o
  state : m.after code n = m'

/-- After `n` instructions the run from `m` comes to an instruction that does not exist. -/
structure StraysAt (m : Machine) (code : Code) (n : Nat) (o : Except MachineError Value)
    (m' : Machine) : Prop where
  goesOn : m.GoesOn code n
  absent : code.node? (m.after code n).regs.x = none
  outcome : o = .error (.malformed (.outOfRange (m.after code n).regs.x code.size))
  state : m.after code n = m'

/-- Instruction number `n` of the run from `m` is executed and does not return. -/
structure HangsAt (m : Machine) (code : Code) (n : Nat) : Prop where
  positive : 0 < n
  goesOn : m.GoesOn code (n - 1)
  outcome : ((m.after code (n - 1)).step code).1 = .error .endless

theorem GoesOn.mono {n k : Nat} (h : m.GoesOn code n) (hk : k ≤ n) : m.GoesOn code k :=
  fun i hi => h i (Nat.lt_of_lt_of_le hi hk)

theorem after_add (m : Machine) (code : Code) (n k : Nat) :
    m.after code (n + k) = (m.after code n).after code k := by
  induction k with
  | zero => rfl
  | succ k ih => rw [← Nat.add_assoc, after, after, ih]

/-- One step of a run that no clock watches. -/
theorem proceed_succ (m : Machine) (code : Code) (fuel : Nat) :
    proceed code (fun _ => false) (fuel + 1) m =
      match final? (m.step code).1 with
      | some o => (some o, (m.step code).2)
      | none => proceed code (fun _ => false) fuel (m.step code).2 := by
  rw [proceed]
  simp only [Bool.and_false, Bool.false_eq_true, ↓reduceIte]
  rcases m.step code with ⟨_ | _ | _, _⟩ <;> rfl

theorem GoesOn.proceed {n : Nat} (h : m.GoesOn code n) (fuel : Nat) :
    Machine.proceed code (fun _ => false) (n + fuel) m =
      Machine.proceed code (fun _ => false) fuel (m.after code n) := by
  induction n generalizing fuel with
  | zero => rw [Nat.zero_add]; rfl
  | succ n ih =>
    have hn := h n (Nat.lt_succ_self n)
    rw [Nat.add_right_comm, Nat.add_assoc, ih (h.mono (Nat.le_succ n)), proceed_succ, hn]
    rfl

theorem EndsAt.proceed {n fuel : Nat} {o : Except MachineError Value} {m' : Machine}
    (h : m.EndsAt code n o m') (hf : n ≤ fuel) :
    Machine.proceed code (fun _ => false) fuel m = (some o, m') := by
  obtain ⟨k, rfl⟩ := Nat.exists_eq_succ_of_ne_zero (Nat.pos_iff_ne_zero.mp h.positive)
  obtain ⟨rest, rfl⟩ := Nat.exists_eq_add_of_le hf
  have hgo : m.GoesOn code k := h.goesOn
  have hout : final? ((m.after code k).step code).1 = some o := h.outcome
  rw [Nat.succ_eq_add_one, Nat.add_assoc, hgo.proceed, Nat.add_comm 1 rest, proceed_succ, hout,
    ← h.state]
  rfl

theorem HangsAt.proceed {n fuel : Nat} (h : m.HangsAt code n) (hf : n ≤ fuel) :
    (Machine.proceed code (fun _ => false) fuel m).1 = some (.error .endless) := by
  obtain ⟨k, rfl⟩ := Nat.exists_eq_succ_of_ne_zero (Nat.pos_iff_ne_zero.mp h.positive)
  obtain ⟨rest, rfl⟩ := Nat.exists_eq_add_of_le hf
  have hgo : m.GoesOn code k := h.goesOn
  have hout : ((m.after code k).step code).1 = .error .endless := h.outcome
  rw [Nat.succ_eq_add_one, Nat.add_assoc, hgo.proceed, Nat.add_comm 1 rest, proceed_succ, hout]
  rfl

theorem StraysAt.step {n : Nat} {o : Except MachineError Value} {m' : Machine}
    (h : m.StraysAt code n o m') (hl : (m.after code n).exhaustedLimit? = none) :
    final? ((m.after code n).step code).1 = some o ∧ ((m.after code n).step code).2 = m' := by
  rw [Machine.step, hl, h.absent, h.outcome, ← h.state]
  exact ⟨rfl, rfl⟩

theorem StraysAt.proceed {n fuel : Nat} {o : Except MachineError Value} {m' : Machine}
    (h : m.StraysAt code n o m') (hl : (m.after code n).exhaustedLimit? = none) (hf : n < fuel) :
    Machine.proceed code (fun _ => false) fuel m = (some o, m') := by
  obtain ⟨rest, rfl⟩ := Nat.exists_eq_add_of_lt hf
  obtain ⟨hout, hstate⟩ := h.step hl
  rw [Nat.add_assoc, h.goesOn.proceed, proceed_succ, hout, hstate]

/-! ## The run without a limit -/

theorem final?_eq_none_iff {r : Except MachineError Progress} :
    final? r = none ↔ r = .ok .running := by
  rcases r with _ | _ | _ <;> simp [final?]

theorem final?_eq_endless_iff {r : Except MachineError Progress} :
    final? r = some (.error .endless) ↔ r = .error .endless := by
  rcases r with _ | _ | _ <;> simp [final?]

/-- A run goes on for `n` steps, or it ended before in one of two ways, or it hangs. -/
theorem goesOn_or (m : Machine) (code : Code) (n : Nat) :
    m.GoesOn code n ∨ (∃ k ≤ n, ∃ o m', m.EndsAt code k o m') ∨
      (∃ k < n, ∃ o m', m.StraysAt code k o m') ∨ ∃ k ≤ n, m.HangsAt code k := by
  induction n with
  | zero => exact .inl fun i hi => absurd hi (Nat.not_lt_zero i)
  | succ n ih =>
    rcases ih with hgo | ⟨k, hk, hend⟩ | ⟨k, hk, hstray⟩ | ⟨k, hk, hhang⟩
    · cases hx : code.node? (m.after code n).regs.x with
      | none => exact .inr (.inr (.inl ⟨n, Nat.lt_succ_self n, _, _, hgo, hx, rfl, rfl⟩))
      | some node =>
        cases ho : final? ((m.after code n).step code).1 with
        | none =>
          refine .inl fun i hi => ?_
          rcases Nat.lt_succ_iff_lt_or_eq.mp hi with hi | rfl
          · exact hgo i hi
          · exact final?_eq_none_iff.mp ho
        | some o =>
          by_cases hreturns : o = .error .endless
          · rw [hreturns] at ho
            exact .inr (.inr (.inr
              ⟨n + 1, Nat.le_refl _, Nat.succ_pos n, hgo, final?_eq_endless_iff.mp ho⟩))
          · exact .inr (.inl ⟨n + 1, Nat.le_refl _, o, _, hreturns, Nat.succ_pos n, hgo,
              ⟨node, hx⟩, ho, rfl⟩)
    · exact .inr (.inl ⟨k, Nat.le_succ_of_le hk, hend⟩)
    · exact .inr (.inr (.inl ⟨k, Nat.lt_succ_of_lt hk, hstray⟩))
    · exact .inr (.inr (.inr ⟨k, Nat.le_succ_of_le hk, hhang⟩))

section Free

variable (hm : m.limit = none)

include hm

theorem exhaustedLimit?_after (n : Nat) : (m.after code n).exhaustedLimit? = none :=
  exhaustedLimit?_of_none ((after_limit m code n).trans hm)

/-- What `EndsAt` and `StraysAt` say is how the run ends. -/
theorem proceed_eq_some_iff {fuel : Nat} {o : Except MachineError Value} {m' : Machine}
    (ho : o ≠ .error .endless) :
    proceed code (fun _ => false) fuel m = (some o, m') ↔
      (∃ n ≤ fuel, m.EndsAt code n o m') ∨ ∃ n < fuel, m.StraysAt code n o m' := by
  constructor
  · intro h
    rcases goesOn_or m code fuel with
      hgo | ⟨n, hn, o', m'', hend⟩ | ⟨n, hn, o', m'', hstray⟩ | ⟨n, hn, hhang⟩
    · have hnone := hgo.proceed 0
      rw [Nat.add_zero, h] at hnone
      cases hnone
    · rw [hend.proceed hn] at h
      cases h
      exact .inl ⟨n, hn, hend⟩
    · rw [hstray.proceed (exhaustedLimit?_after hm n) hn] at h
      cases h
      exact .inr ⟨n, hn, hstray⟩
    · have hout := hhang.proceed hn
      rw [h] at hout
      cases hout
      exact absurd rfl ho
  · rintro (⟨n, hn, hend⟩ | ⟨n, hn, hstray⟩)
    · exact hend.proceed hn
    · exact hstray.proceed (exhaustedLimit?_after hm n) hn

/-! ## The run under a limit -/

/-- Until the limit is used up, the run under it goes through the same states. -/
theorem GoesOn.relimited {n l : Nat} (h : m.GoesOn code n) (hl : m.stats.instructions + n ≤ l) :
    (m.relimited (some l)).GoesOn code n ∧
      (m.relimited (some l)).after code n = (m.after code n).relimited (some l) := by
  induction n with
  | zero => exact ⟨fun i hi => absurd hi (Nat.not_lt_zero i), rfl⟩
  | succ n ih =>
    obtain ⟨hgo, hafter⟩ := ih (h.mono (Nat.le_succ n)) (by omega)
    have hcount : (m.after code n).stats.instructions = m.stats.instructions + n :=
      after_counts (h.mono (Nat.le_succ n))
    have hstep := step_relimited (exhaustedLimit?_after hm n)
      (exhaustedLimit?_of_lt (m := m.after code n) (l := l) (by omega)) code
    refine ⟨fun i hi => ?_, ?_⟩
    · rcases Nat.lt_succ_iff_lt_or_eq.mp hi with hi | rfl
      · exact hgo i hi
      · rw [hafter, hstep]
        exact h i (Nat.lt_succ_self i)
    · rw [after, hafter, hstep]
      rfl

theorem EndsAt.counts {n : Nat} {o : Except MachineError Value} {m' : Machine}
    (h : m.EndsAt code n o m') : m'.stats.instructions = m.stats.instructions + n := by
  obtain ⟨node, hnode⟩ := h.fetched
  have hl : (m.after code (n - 1)).exhaustedLimit? = none := exhaustedLimit?_after hm (n - 1)
  have hcount := ((Twin.refl (m.after code (n - 1))).step code hl hl fun _ _ => rfl).2.count_eq
  have hpos := h.positive
  have hstate := h.state
  rw [← Nat.sub_add_cancel hpos, after] at hstate
  rw [hstate, countAfter, hnode, after_counts h.goesOn] at hcount
  simp only [Option.isSome_some, ↓reduceIte] at hcount
  omega

/-- A run that ends with an instruction that the limit allows ends alike under the limit. -/
theorem EndsAt.relimited {n l : Nat} {o : Except MachineError Value} {m' : Machine}
    (h : m.EndsAt code n o m') (hl : m.stats.instructions + n ≤ l) :
    (m.relimited (some l)).EndsAt code n o (m'.relimited (some l)) := by
  obtain ⟨k, rfl⟩ := Nat.exists_eq_succ_of_ne_zero (Nat.pos_iff_ne_zero.mp h.positive)
  have hgo : m.GoesOn code k := h.goesOn
  obtain ⟨hgo', hafter⟩ := hgo.relimited hm (l := l) (by omega)
  have hcount : (m.after code k).stats.instructions = m.stats.instructions + k := after_counts hgo
  have hstep := step_relimited (exhaustedLimit?_after hm k)
    (exhaustedLimit?_of_lt (m := m.after code k) (l := l) (by omega)) code
  refine ⟨h.returns, h.positive, hgo', ?_, ?_, ?_⟩
  · change ∃ node, code.node? ((m.relimited (some l)).after code k).regs.x = some node
    rw [hafter]
    exact h.fetched
  · change final? (((m.relimited (some l)).after code k).step code).1 = some o
    rw [hafter, hstep]
    exact h.outcome
  · rw [Nat.succ_eq_add_one, after, hafter, hstep, ← h.state]
    rfl

/-- A run that leaves the code does so under the limit, if the limit allows one more instruction. -/
theorem StraysAt.relimited {n l : Nat} {o : Except MachineError Value} {m' : Machine}
    (h : m.StraysAt code n o m') (hl : m.stats.instructions + n < l) :
    (m.relimited (some l)).StraysAt code n o (m'.relimited (some l)) ∧
      ((m.relimited (some l)).after code n).exhaustedLimit? = none := by
  obtain ⟨hgo, hafter⟩ := h.goesOn.relimited hm (Nat.le_of_lt hl)
  have hcount : (m.after code n).stats.instructions = m.stats.instructions + n :=
    after_counts h.goesOn
  refine ⟨⟨hgo, ?_, ?_, ?_⟩, ?_⟩
  · rw [hafter]
    exact h.absent
  · rw [hafter]
    exact h.outcome
  · rw [hafter, h.state]
  · rw [hafter]
    exact exhaustedLimit?_of_lt (hcount ▸ hl)

/-- An instruction that does not return does not return under a limit either. -/
theorem HangsAt.relimited {n l : Nat} (h : m.HangsAt code n)
    (hl : m.stats.instructions + n ≤ l) : (m.relimited (some l)).HangsAt code n := by
  obtain ⟨k, rfl⟩ := Nat.exists_eq_succ_of_ne_zero (Nat.pos_iff_ne_zero.mp h.positive)
  have hgo : m.GoesOn code k := h.goesOn
  obtain ⟨hgo', hafter⟩ := hgo.relimited hm (l := l) (by omega)
  have hcount : (m.after code k).stats.instructions = m.stats.instructions + k := after_counts hgo
  have hstep := step_relimited (exhaustedLimit?_after hm k)
    (exhaustedLimit?_of_lt (m := m.after code k) (l := l) (by omega)) code
  refine ⟨h.positive, hgo', ?_⟩
  change (((m.relimited (some l)).after code k).step code).1 = .error .endless
  rw [hafter, hstep]
  exact h.outcome

/-- A run that goes on up to the limit is refused the next instruction. -/
theorem GoesOn.cut {l : Nat} (h : m.GoesOn code l) (hzero : m.stats.instructions = 0) {fuel : Nat}
    (hf : l < fuel) :
    Machine.proceed code (fun _ => false) fuel (m.relimited (some l)) =
      (some (.error (.instructionLimitExceeded l)), (m.after code l).relimited (some l)) := by
  obtain ⟨rest, rfl⟩ := Nat.exists_eq_add_of_lt hf
  obtain ⟨hgo, hafter⟩ := h.relimited hm (l := l) (by omega)
  have hcount : (m.after code l).stats.instructions = l := by
    rw [after_counts h, hzero, Nat.zero_add]
  rw [Nat.add_assoc, hgo.proceed, hafter, proceed_succ, step_of_exhausted hcount]
  rfl

end Free

end Machine

/-- The run under limit `l` against the run without one. If the latter ends with an instruction that
is its `n`-th with `n ≤ l`, or leaves the code after fewer than `l`, the former ends with the same
outcome in the same state. If the `n`-th instruction does not return, neither run does. Otherwise it
is refused instruction `l + 1`, in the state that the run without a limit has after `l`; with the
limit lifted there, it goes on like that run. Under a careful host whose procedures return, every
instruction returns. -/
theorem limit_cuts_at_the_exact_instruction (m : Machine) (code : Code) (entry : NodeId) (l : Nat) :
    let free := m.relimited none
    let capped := m.relimited (some l)
    let first := free.start entry
    (∀ fuel o m', o ≠ .error .endless → (free.run code entry fuel = (some o, m') ↔
      (∃ n ≤ fuel, first.EndsAt code n o m') ∨ ∃ n < fuel, first.StraysAt code n o m')) ∧
    (∀ n o m', first.EndsAt code n o m' → n ≤ l → m'.stats.instructions = n ∧
      ∀ fuel ≥ n, capped.run code entry fuel = (some o, m'.relimited (some l))) ∧
    (∀ n o m', first.StraysAt code n o m' → n < l → m'.stats.instructions = n ∧
      ∀ fuel > n, capped.run code entry fuel = (some o, m'.relimited (some l))) ∧
    (∀ n, first.HangsAt code n → ∀ fuel ≥ n,
      (free.run code entry fuel).1 = some (.error .endless) ∧
        (n ≤ l → (capped.run code entry fuel).1 = some (.error .endless))) ∧
    ((∀ n o m', first.EndsAt code n o m' → l < n) →
      (∀ n o m', first.StraysAt code n o m' → l ≤ n) → (∀ n, first.HangsAt code n → l < n) →
      first.GoesOn code l ∧ ∃ cut, cut.stats.instructions = l ∧
        (∀ fuel > l, capped.run code entry fuel =
          (some (.error (.instructionLimitExceeded l)), cut)) ∧
        cut.relimited none = first.after code l ∧
        (∀ k, (cut.relimited none).after code k = first.after code (l + k)) ∧
        ∀ fuel, Machine.proceed code (fun _ => false) fuel (cut.relimited none) =
          free.run code entry (l + fuel)) ∧
    ∀ h : Host, h.Reachable Machine.Careful → h.machine = m →
      (∀ p ∈ m.primitives, p.Returns) → ∀ n, ¬ first.HangsAt code n := by
  intro free capped first
  have hfree : first.limit = none := rfl
  have hzero : first.stats.instructions = 0 := rfl
  refine ⟨fun fuel o m' => Machine.proceed_eq_some_iff hfree, ?_, ?_, ?_, ?_, ?_⟩
  · intro n o m' hend hn
    refine ⟨by rw [hend.counts hfree, hzero, Nat.zero_add], fun fuel hf => ?_⟩
    exact (hend.relimited hfree (by omega)).proceed hf
  · intro n o m' hstray hn
    refine ⟨?_, fun fuel hf => ?_⟩
    · rw [← hstray.state, Machine.after_counts hstray.goesOn, hzero, Nat.zero_add]
    · obtain ⟨hstray', hl⟩ := hstray.relimited hfree (l := l) (by omega)
      exact hstray'.proceed hl hf
  · intro n hhang fuel hf
    exact ⟨hhang.proceed hf, fun hn => (hhang.relimited hfree (l := l) (by omega)).proceed hf⟩
  · intro hends hstrays hhangs
    have hgo : first.GoesOn code l := by
      rcases first.goesOn_or code l with
        hgo | ⟨n, hn, o, m', hend⟩ | ⟨n, hn, o, m', hstray⟩ | ⟨n, hn, hhang⟩
      · exact hgo
      · exact absurd (hends n o m' hend) (Nat.not_lt.mpr hn)
      · exact absurd (hstrays n o m' hstray) (Nat.not_le.mpr hn)
      · exact absurd (hhangs n hhang) (Nat.not_lt.mpr hn)
    have hlift : ((first.after code l).relimited (some l)).relimited none = first.after code l :=
      Machine.relimited_self ((Machine.after_limit first code l).trans hfree)
    refine ⟨hgo, (first.after code l).relimited (some l), ?_, fun fuel hf => hgo.cut hfree hzero hf,
      hlift, ?_, ?_⟩
    · rw [Machine.relimited_stats, Machine.after_counts hgo, hzero, Nat.zero_add]
    · intro k
      rw [hlift, Machine.after_add]
    · intro fuel
      rw [hlift]
      exact (hgo.proceed fuel).symm
  · rintro h hr rfl hreturns n hhang
    have hsound : (h.machine.relimited none).Sound := hr.sound.machine.congr rfl rfl
    exact Machine.after_returns hsound hreturns entry code (n - 1) hhang.outcome

/-- From entry 0 the second instruction halts; from entry 2 control leaves the code after one. -/
def shortCode : Code := ⟨#[.constant (.int 5) 1, .halt, .constant (.int 6) 7], #[]⟩

/-- Halting as the last instruction allowed, leaving the code right at the limit, and leaving it
with one instruction to spare. -/
theorem limit_cuts_at_the_exact_instruction_short :
    ((cramped.relimited (some 2)).run shortCode 0 9).1 = some (.ok (.int 5)) ∧
    ((cramped.relimited (some 1)).run shortCode 2 9).1 =
      some (.error (.instructionLimitExceeded 1)) ∧
    ((cramped.relimited (some 2)).run shortCode 2 9).1 =
      some (.error (.malformed (.outOfRange 7 3))) := by
  obtain ⟨-, hends, -⟩ := limit_cuts_at_the_exact_instruction cramped shortCode 0 2
  obtain ⟨-, -, hstrays, -⟩ := limit_cuts_at_the_exact_instruction cramped shortCode 2 2
  obtain ⟨-, -, -, -, hcut, hcareful⟩ := limit_cuts_at_the_exact_instruction cramped shortCode 2 1
  have hend : ((cramped.relimited none).start 0).EndsAt shortCode 2 (.ok (.int 5)) _ :=
    ⟨nofun, Nat.two_pos, fun i hi => by rw [Nat.lt_one_iff.mp hi]; rfl, ⟨_, rfl⟩, rfl, rfl⟩
  have hstray : ((cramped.relimited none).start 2).StraysAt shortCode 1
      (.error (.malformed (.outOfRange 7 3))) _ :=
    ⟨fun i hi => by rw [Nat.lt_one_iff.mp hi]; rfl, rfl, rfl, rfl⟩
  have hnew : Host.Reachable Machine.Careful ⟨cramped, ⟨2⟩, [], []⟩ :=
    @Host.Reachable.create _ { arena := .ofBlocks 1 } {} _ _ (by decide) rfl
  refine ⟨?_, ?_, ?_⟩
  · rw [(hends 2 _ _ hend (by decide)).2 9 (by decide)]
  · have hlate : ∀ n o m', ((cramped.relimited none).start 2).EndsAt shortCode n o m' → 1 < n := by
      intro n o m' h
      refine Nat.lt_of_le_of_ne h.positive ?_
      rintro rfl
      have hout := h.outcome
      cases hout
    have haway : ∀ n o m', ((cramped.relimited none).start 2).StraysAt shortCode n o m' → 1 ≤ n := by
      intro n o m' h
      refine Nat.pos_of_ne_zero ?_
      rintro rfl
      have habsent := h.absent
      cases habsent
    obtain ⟨-, cut, -, hrun, -⟩ := hcut hlate haway fun n hhang =>
      absurd hhang (hcareful _ hnew rfl nofun n)
    rw [hrun 9 (by decide)]
  · rw [(hstrays 1 _ _ hstray (by decide)).2 9 (by decide)]

/-- Store the control stack. -/
def keepCode : Code := { nodes := #[.halt, .conti 0] }

/-- Install the circle and return into it. -/
def spinCode : Code := { nodes := #[.nuate (some ⟨⟨0, 2⟩⟩) none, .ret] }

theorem keepCode_installs (taken : List (Option FrameRef)) :
    ∀ x f var, keepCode.node? x = some (.nuate (some f) var) → some f ∈ taken := by
  rintro (_ | _ | x) f var hx <;> cases hx

theorem spinCode_installs (taken : List (Option FrameRef)) :
    ∀ x f var, spinCode.node? x = some (.nuate (some f) var) →
      some f ∈ some ⟨⟨0, 2⟩⟩ :: taken := by
  rintro (_ | _ | x) f var hx <;> cases hx
  exact List.mem_cons_self

/-- A host takes the circular stack from a continuation and installs it again. Its first instruction
counts the frames for ever, and a run under a limit of five does not return. -/
theorem limit_never_reached :
    ∃ h : Host, h.Reachable (fun _ _ => True) ∧ (∀ p ∈ h.machine.primitives, p.Returns) ∧
      (∀ x f var, spinCode.node? x = some (.nuate (some f) var) → some f ∈ h.taken) ∧
      (¬ ∃ rest, h.machine.heap.Walk (some ⟨⟨0, 2⟩⟩) rest) ∧
      ((h.machine.relimited none).start 0).HangsAt spinCode 1 ∧
      ∀ fuel ≥ 1, ((h.machine.relimited (some 5)).run spinCode 0 fuel).1 =
        some (.error .endless) := by
  have hkept := circleMachine_reachable.move (.step _ keepCode (keepCode_installs _) trivial)
  have htaken := hkept.move (@Host.Move.take _ _ (.continuation ⟨⟨1, 2⟩⟩) _ rfl)
  refine ⟨_, htaken, nofun, spinCode_installs _, ?_, ?_, ?_⟩
  · exact CallFrame.chain?_eq_none_iff.mp rfl
  · exact ⟨Nat.one_pos, fun i hi => absurd hi (Nat.not_lt_zero i), rfl⟩
  · intro fuel hf
    obtain ⟨rest, rfl⟩ := Nat.exists_eq_add_of_le' hf
    rfl

end ClosureMachine
