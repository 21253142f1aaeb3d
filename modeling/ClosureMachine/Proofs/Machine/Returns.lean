import ClosureMachine.Proofs.Machine.Coherent
import ClosureMachine.Proofs.Machine.Recovery
import ClosureMachine.Proofs.Machine.Renaming

/-!
Steps that return. Two instructions walk along chains of records as far as these go: the one that
names a variable and the one that installs a control stack. In a sound machine both chains lead to
ever earlier records, so every step returns unless a host procedure does not (`step_returns`), and
so does every step of a run (`after_returns`).
-/

namespace ClosureMachine

/-- Looking for a variable returns where each environment leads to earlier ones. -/
theorem Binding.search_returns {heap : Heap} {base : Nat} (hl : heap.Linked base) (code : Code)
    (var : SymbolId) {fuel : Nat} {env : Option EnvRef}
    (he : ∀ r ∈ env, heap.HoldsEnv base heap.used r ∧ r.addr.offset < fuel) :
    search heap code var fuel env ≠ .endless := by
  induction fuel generalizing env with
  | zero =>
    cases env with
    | none => rintro ⟨⟩
    | some r => exact absurd (he r rfl).2 (Nat.not_lt_zero _)
  | succ fuel ih =>
    cases env with
    | none => rintro ⟨⟩
    | some r =>
      obtain ⟨hr, hlt⟩ := he r rfl
      obtain ⟨head, hc⟩ := hr.stored
      simp only [search, hl.load_env hr.base_le hr.generation hc]
      split
      · rintro ⟨⟩
      · split
        · rintro ⟨⟩
        · refine ih fun r' hr' => ?_
          have hparent := hl.link _ _ hr.base_le hc r' hr'
          have hbound := hparent.lt_bound
          exact ⟨hparent.mono (.refl _ _) (Nat.le_of_lt hr.lt_bound), by omega⟩

namespace Machine

variable {m : Machine} {code : Code}

theorem find_returns (h : m.Sound) (code : Code) (var : SymbolId) :
    Binding.find m.heap code m.regs.e var ≠ .endless :=
  Binding.search_returns h.rooted.linked code var fun r hr =>
    ⟨h.rooted.env r hr, Nat.lt_succ_of_lt (h.rooted.env r hr).lt_bound⟩

theorem lookup_returns (h : m.Sound) (code : Code) (var : SymbolId) :
    m.lookup code var ≠ .error .endless := by
  have hfind := find_returns h code var
  unfold lookup
  split
  · split <;> rintro ⟨⟩
  · split <;> rintro ⟨⟩
  · rintro ⟨⟩
  · next hendless => exact absurd hendless hfind

theorem assign_returns (h : m.Sound) (code : Code) (var : SymbolId) (v : Value) :
    (m.assign code var v).1 ≠ .error .endless := by
  have hfind := find_returns h code var
  unfold assign
  split
  · split <;> rintro ⟨⟩
  · split <;> rintro ⟨⟩
  · rintro ⟨⟩
  · next hendless => exact absurd hendless hfind

theorem popFrame_returns (m : Machine) : m.popFrame.1 ≠ .error .endless := by
  unfold popFrame
  repeat' split
  all_goals rintro ⟨⟩

theorem applyClosure_returns (m : Machine) (code : Code) (ref : Ref Closure) :
    (m.applyClosure code ref).1 ≠ .error .endless := by
  unfold applyClosure
  repeat' split
  all_goals rintro ⟨⟩

theorem applyContinuation_returns (m : Machine) (ref : Ref Continuation) :
    (m.applyContinuation ref).1 ≠ .error .endless := by
  cases hk : m.heap.get? ref with
  | none =>
    simp only [applyContinuation, hk]
    rintro ⟨⟩
  | some k =>
    by_cases hr : m.regs.r.length = 1
    · obtain ⟨v, hv⟩ := List.length_eq_one_iff.mp hr
      rw [applyContinuation_eq hk hv]
      exact popFrame_returns _
    · rw [applyContinuation_of_refused hk hr]
      rintro ⟨⟩

theorem applyPrimitive_returns (hp : ∀ p ∈ m.primitives, p.Returns) (id : PrimitiveId) :
    (m.applyPrimitive id).1 ≠ .error .endless := by
  unfold applyPrimitive
  split
  · rintro ⟨⟩
  · next p hid =>
    split
    · split
      · next e he =>
        rintro ⟨⟩
        exact hp p (Array.mem_of_getElem? hid) _ he
      · exact popFrame_returns _
    · rintro ⟨⟩

theorem apply_returns (hp : ∀ p ∈ m.primitives, p.Returns) (code : Code) :
    (m.apply code).1 ≠ .error .endless := by
  unfold apply
  split
  · exact applyClosure_returns m code _
  · exact applyContinuation_returns m _
  · exact applyPrimitive_returns hp _
  · rintro ⟨⟩

theorem reinstate_returns (h : m.Sound) (stack : Option FrameRef) :
    (m.reinstate stack none).1 ≠ .error .endless := by
  rw [reinstate_of_linked h.rooted.linked]
  exact popFrame_returns _

theorem andGoto_returns {r : Result Unit} (h : r.1 ≠ .error .endless) (next : NodeId) :
    (andGoto next r).1 ≠ .error .endless := by
  obtain ⟨e | u, m'⟩ := r
  · rintro ⟨⟩
    exact h rfl
  · rintro ⟨⟩

theorem andContinue_returns {r : Result Unit} (h : r.1 ≠ .error .endless) :
    (andContinue r).1 ≠ .error .endless := by
  obtain ⟨e | u, m'⟩ := r
  · rintro ⟨⟩
    exact h rfl
  · rintro ⟨⟩

theorem execute_returns (h : m.Sound) (hp : ∀ p ∈ m.primitives, p.Returns) (code : Code)
    (n : Node) : (m.execute code n).1 ≠ .error .endless := by
  cases n with
  | halt => rintro ⟨⟩
  | refer var next =>
    have hlookup := lookup_returns h code var
    simp only [execute]
    split
    · next e he =>
      rintro ⟨⟩
      exact hlookup he
    · rintro ⟨⟩
  | constant v next => rintro ⟨⟩
  | close formals body next =>
    refine andGoto_returns ?_ next
    rw [makeClosure_eq]
    split <;> rintro ⟨⟩
  | test onTrue onFalse => rintro ⟨⟩
  | assign var next => exact andGoto_returns (assign_returns h code var _) next
  | conti next =>
    refine andGoto_returns ?_ next
    rw [capture_eq]
    split <;> rintro ⟨⟩
  | nuate stack var =>
    cases var with
    | none => exact andContinue_returns (reinstate_returns h stack)
    | some var =>
      have hlookup := lookup_returns h code var
      simp only [execute]
      split
      · next e he =>
        rintro ⟨⟩
        exact hlookup he
      · next v _ =>
        exact andContinue_returns (reinstate_returns (m := m.setAccumulator v) (h.congr rfl rfl) _)
  | frame returnTo next =>
    refine andGoto_returns ?_ next
    rw [pushFrame_eq h.rooted.linked.capacity_lt]
    split <;> rintro ⟨⟩
  | argument next => rintro ⟨⟩
  | apply => exact andContinue_returns (apply_returns hp code)
  | ret => exact andContinue_returns (popFrame_returns m)

/-- A step of a sound machine returns, if its host procedures do. -/
theorem step_returns (h : m.Sound) (hp : ∀ p ∈ m.primitives, p.Returns) (code : Code) :
    (m.step code).1 ≠ .error .endless := by
  unfold step
  split
  · rintro ⟨⟩
  · split
    · rintro ⟨⟩
    · exact execute_returns (m := m.tick) (h.congr rfl rfl) hp code _

theorem after_coherent (h : m.Coherent code) (n : Nat) :
    (m.after code n).Coherent code ∧ (m.after code n).primitives = m.primitives := by
  induction n with
  | zero => exact ⟨h, rfl⟩
  | succ n ih =>
    obtain ⟨hc, hp⟩ := ih
    have hfit := step_fitted hc.sound.rooted.linked.capacity_lt code
    exact ⟨(step_coherent hc).1, hfit.primitives.trans hp⟩

/-- Every step of a run that starts in a sound machine returns, if the host procedures do. -/
theorem after_returns (h : m.Sound) (hp : ∀ p ∈ m.primitives, p.Returns) (entry : NodeId)
    (code : Code) (n : Nat) :
    (((m.start entry).after code n).step code).1 ≠ .error .endless := by
  obtain ⟨hc, hprims⟩ := after_coherent ((h.start entry).coherent code) n
  refine step_returns hc.sound (fun p hmem => hp p ?_) code
  rwa [hprims] at hmem

end Machine

end ClosureMachine
