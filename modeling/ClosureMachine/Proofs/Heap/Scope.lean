import ClosureMachine.Proofs.Heap.Walks

/-!
Where a variable is bound. `Binds` says that a frame is the innermost one of an environment chain
whose parameter list holds a variable, and at which position; `Unbound` says that no frame of the
chain does. Both follow the chain and know nothing of a bound on its length.

Where parents lie before their children (`Descends`), the search for a variable finds exactly these:
`find_eq_slot_iff` and `find_eq_free_iff`.
-/

namespace ClosureMachine

namespace Heap

variable {heap : Heap} {code : Code} {var : SymbolId}

/-- `r` is the innermost frame of the chain that binds `var`, at position `i`. -/
inductive Binds (heap : Heap) (code : Code) (var : SymbolId) :
    Option EnvRef → EnvRef → Nat → Prop
  | here {r : EnvRef} {f : EnvFrame} {names : List SymbolId} {i : Nat} :
    EnvFrame.load? heap r = some f → code.formals? f.names = some names →
      names.idxOf? var = some i → Binds heap code var (some r) r i
  | outer {r r' : EnvRef} {f : EnvFrame} {names : List SymbolId} {i : Nat} :
    EnvFrame.load? heap r = some f → code.formals? f.names = some names →
      names.idxOf? var = none → Binds heap code var f.parent r' i →
        Binds heap code var (some r) r' i

/-- The chain can be walked to its end, and no frame of it binds `var`. -/
inductive Unbound (heap : Heap) (code : Code) (var : SymbolId) : Option EnvRef → Prop
  | done : Unbound heap code var none
  | outer {r : EnvRef} {f : EnvFrame} {names : List SymbolId} :
    EnvFrame.load? heap r = some f → code.formals? f.names = some names →
      names.idxOf? var = none → Unbound heap code var f.parent → Unbound heap code var (some r)

/-- The parent of a frame lies before it. -/
def Descends (heap : Heap) : Prop :=
  ∀ r f, EnvFrame.load? heap r = some f → ∀ p ∈ f.parent, p.addr.offset < r.addr.offset

theorem lt_used_of_load_env {r : EnvRef} {f : EnvFrame} (h : EnvFrame.load? heap r = some f) :
    r.addr.offset < heap.used := by
  obtain ⟨head, hget, -⟩ := Option.map_eq_some_iff.mp h
  exact cell?_lt ((get?_environment_iff _ _ _).mp hget).2

theorem Binds.search {env : Option EnvRef} {r : EnvRef} {i : Nat} {f : EnvFrame}
    (h : heap.Binds code var env r i) (hf : EnvFrame.load? heap r = some f)
    (hd : heap.Descends) :
    ∀ fuel, (∀ e ∈ env, e.addr.offset < fuel) →
      Binding.search heap code var fuel env = .slot f.values i := by
  induction h with
  | @here r f' names i hload hnames hi =>
    intro fuel hfuel
    obtain ⟨k, rfl⟩ := Nat.exists_eq_succ_of_ne_zero (Nat.ne_zero_of_lt (hfuel r rfl))
    rw [hf] at hload
    cases hload
    simp only [Binding.search, hf, hnames, hi]
  | @outer r r' f' names i hload hnames hi _ ih =>
    intro fuel hfuel
    have hr := hfuel r rfl
    obtain ⟨k, rfl⟩ := Nat.exists_eq_succ_of_ne_zero (Nat.ne_zero_of_lt hr)
    simp only [Binding.search, hload, hnames, hi]
    refine ih hf k fun e he => ?_
    have hlt := hd r f' hload e he
    omega

theorem Unbound.search {env : Option EnvRef} (h : heap.Unbound code var env)
    (hd : heap.Descends) :
    ∀ fuel, (∀ e ∈ env, e.addr.offset < fuel) →
      Binding.search heap code var fuel env = .free := by
  induction h with
  | done =>
    intro fuel _
    cases fuel <;> rfl
  | @outer r f names hload hnames hi _ ih =>
    intro fuel hfuel
    have hr := hfuel r rfl
    obtain ⟨k, rfl⟩ := Nat.exists_eq_succ_of_ne_zero (Nat.ne_zero_of_lt hr)
    simp only [Binding.search, hload, hnames, hi]
    refine ih k fun e he => ?_
    have hlt := hd r f hload e he
    omega

/-- What the search finds is there, whatever bounds it. -/
theorem search_sound {fuel : Nat} {env : Option EnvRef} :
    (∀ s i, Binding.search heap code var fuel env = .slot s i →
      ∃ r f, heap.Binds code var env r i ∧ EnvFrame.load? heap r = some f ∧ s = f.values) ∧
    (Binding.search heap code var fuel env = .free → heap.Unbound code var env) := by
  induction fuel generalizing env with
  | zero =>
    cases env with
    | none => exact ⟨by simp [Binding.search], fun _ => .done⟩
    | some r => simp [Binding.search]
  | succ fuel ih =>
    cases env with
    | none => exact ⟨by simp [Binding.search], fun _ => .done⟩
    | some r =>
      simp only [Binding.search]
      cases hload : EnvFrame.load? heap r with
      | none => simp
      | some f =>
        simp only
        cases hnames : code.formals? f.names with
        | none => simp
        | some names =>
          simp only
          cases hi : names.idxOf? var with
          | some index =>
            refine ⟨fun s i h => ?_, by simp⟩
            cases h
            exact ⟨r, f, .here hload hnames hi, hload, rfl⟩
          | none =>
            obtain ⟨hslot, hfree⟩ := @ih f.parent
            refine ⟨fun s i h => ?_, fun h => .outer hload hnames hi (hfree h)⟩
            obtain ⟨r', f', hb, hload', hs⟩ := hslot s i h
            exact ⟨r', f', .outer hload hnames hi hb, hload', hs⟩

theorem find_eq_slot_iff (hd : heap.Descends) {env : Option EnvRef} {s : Slice Value} {i : Nat} :
    Binding.find heap code env var = .slot s i ↔
      ∃ r f, heap.Binds code var env r i ∧ EnvFrame.load? heap r = some f ∧ s = f.values := by
  constructor
  · exact search_sound.1 s i
  · rintro ⟨r, f, hb, hf, rfl⟩
    refine hb.search hf hd _ fun e he => ?_
    rw [Option.mem_def.mp he] at hb
    cases hb with
    | here hload _ _ => exact Nat.lt_succ_of_lt (lt_used_of_load_env hload)
    | outer hload _ _ _ => exact Nat.lt_succ_of_lt (lt_used_of_load_env hload)

theorem find_eq_free_iff (hd : heap.Descends) {env : Option EnvRef} :
    Binding.find heap code env var = .free ↔ heap.Unbound code var env := by
  constructor
  · exact search_sound.2
  · intro hu
    refine hu.search hd _ fun e he => ?_
    rw [Option.mem_def.mp he] at hu
    cases hu with
    | outer hload _ _ _ => exact Nat.lt_succ_of_lt (lt_used_of_load_env hload)

end Heap

end ClosureMachine
