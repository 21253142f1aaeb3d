import ClosureMachine.Proofs.Meaning.Simulation

/-!
Whole runs. When the machine tracks a configuration and its run ends, the configuration has reached
one that ends in the same way, or memory ran out on the way there (`Tracks.explains`). When the
configuration comes to an end, so does the machine (`Tracks.answers`).
-/

namespace ClosureMachine

namespace Machine

/-- A run without a deadline. -/
def Answers (code : Code) (fuel : Nat) (m : Machine) (r : Except MachineError Value)
    (m' : Machine) : Prop :=
  proceed code (fun _ => false) fuel m = (some r, m')

variable {code : Code} {m m' m'' : Machine} {n fuel : Nat} {r : Except MachineError Value}

theorem not_answers_zero : ¬ Answers code 0 m r m' := nofun

theorem answers_of_running (h : m.step code = (.ok .running, m')) :
    Answers code (fuel + 1) m r m'' ↔ Answers code fuel m' r m'' := by
  simp [Answers, proceed, h]

theorem answers_of_final {q : Except MachineError Value} (h : m.step code = (q.map .halted, m')) :
    Answers code (fuel + 1) m r m'' ↔ r = q ∧ m'' = m' := by
  cases q with
  | error e => simp [Answers, proceed, h, Except.map, eq_comm]
  | ok v => simp [Answers, proceed, h, Except.map, eq_comm]

/-- The run goes on after steps. -/
theorem Steps.answers (h : Steps code n m m') (ha : Answers code fuel m' r m'') :
    Answers code (n + fuel) m r m'' := by
  induction h with
  | refl => rwa [Nat.zero_add]
  | head hs _ ih =>
    rw [Nat.add_right_comm]
    exact (answers_of_running hs).mpr (ih ha)

/-- A run that ends has taken the steps that were to be taken. -/
theorem Steps.answers_inv (h : Steps code n m m') (ha : Answers code fuel m r m'') :
    ∃ fuel', fuel = n + fuel' ∧ Answers code fuel' m' r m'' := by
  induction h generalizing fuel with
  | refl => exact ⟨fuel, (Nat.zero_add _).symm, ha⟩
  | head hs _ ih =>
    cases fuel with
    | zero => exact absurd ha not_answers_zero
    | succ fuel =>
      obtain ⟨fuel', rfl, ha'⟩ := ih ((answers_of_running hs).mp ha)
      exact ⟨fuel', Nat.add_right_comm .., ha'⟩

theorem Steps.answers_final {q : Except MachineError Value} {m₂ : Machine}
    (h : Steps code n m m') (hf : m'.step code = (q.map .halted, m₂))
    (ha : Answers code fuel m r m'') : r = q ∧ m'' = m₂ := by
  obtain ⟨fuel', -, ha'⟩ := h.answers_inv ha
  cases fuel' with
  | zero => exact absurd ha' not_answers_zero
  | succ fuel' => exact (answers_of_final hf).mp ha'

theorem Steps.answers_of_final {q : Except MachineError Value} {m₂ : Machine}
    (h : Steps code n m m') (hf : m'.step code = (q.map .halted, m₂)) :
    Answers code (n + 1) m q m₂ :=
  h.answers ((Machine.answers_of_final hf).mpr ⟨rfl, rfl⟩)

end Machine

/-! ## Both sides -/

/-- The machine's result is what the configuration comes to, or there was no room for more. -/
def Config.Explains (c : Config) (t : SymbolTable) (r : Except MachineError Value)
    (heap : Heap) : Prop :=
  (∃ o, c.step = .stop o ∧ o.Shows t r) ∨
    ∃ cause, r = .error (.outOfMemory cause) ∧ heap.Lacks cause

namespace Layout

theorem Tracks.explains {d : Layout} {c : Config} {m : Machine} (h : d.Tracks c m) {fuel : Nat}
    {r : Except MachineError Value} {m' : Machine} (ha : m.Answers d.code fuel r m') :
    ∃ c' d', c.Reaches c' ∧ d.Alike d' ∧ d'.Mirrors c'.world m' ∧
      c'.Explains d.symbols r m'.heap := by
  have hsim := h.simulates
  cases hstep : c.step with
  | stop o =>
    rw [hstep] at hsim
    obtain ⟨n, m₁, m₂, r', d', hs, hf, ho, hd, hm⟩ := hsim
    obtain ⟨rfl, rfl⟩ := hs.answers_final hf ha
    exact ⟨c, d', .refl, hd, hm, .inl ⟨o, hstep, ho⟩⟩
  | next c₁ =>
    rw [hstep] at hsim
    rcases hsim with ⟨n, m₁, d₁, hs, hd, ht, hr⟩ | ⟨n, m₁, m₂, cause, d', hs, hf, hl, hd, hm⟩
    · obtain ⟨fuel', hfuel, ha'⟩ := hs.answers_inv ha
      rw [← hd.2] at ha'
      obtain ⟨c', d', hreach, hd', hm, he⟩ := Tracks.explains ht ha'
      rw [hd.1] at he
      exact ⟨c', d', .step hstep hreach, hd.trans hd', hm, he⟩
    · obtain ⟨rfl, rfl⟩ := hs.answers_final (q := .error _) hf ha
      exact ⟨c, d', .refl, hd, hm, .inr ⟨cause, rfl, hl⟩⟩
termination_by (fuel, c.rank)
decreasing_by
  rcases hr with hpos | hrank
  · exact Prod.Lex.left _ _ (by omega)
  · cases n with
    | zero =>
      rw [Nat.zero_add] at hfuel
      exact hfuel ▸ Prod.Lex.right _ hrank
    | succ n => exact Prod.Lex.left _ _ (by omega)

theorem Tracks.answers {d : Layout} {c c' : Config} {m : Machine} (h : d.Tracks c m)
    (hr : c.Reaches c') {o : Outcome} (ho : c'.step = .stop o) :
    ∃ fuel r m', m.Answers d.code fuel r m' := by
  induction hr generalizing d m with
  | refl =>
    have hsim := h.simulates
    rw [ho] at hsim
    obtain ⟨n, m₁, m₂, r, d', hs, hf, -⟩ := hsim
    exact ⟨n + 1, r, m₂, hs.answers_of_final hf⟩
  | step hstep _ ih =>
    have hsim := h.simulates
    rw [hstep] at hsim
    rcases hsim with ⟨n, m₁, d₁, hs, hd, ht, -⟩ | ⟨n, m₁, m₂, cause, d', hs, hf, -⟩
    · obtain ⟨fuel, r, m', ha⟩ := ih ht ho
      rw [hd.2] at ha
      exact ⟨n + fuel, r, m', hs.answers ha⟩
    · exact ⟨n + 1, .error _, m₂, hs.answers_of_final (q := .error _) hf⟩

end Layout

end ClosureMachine
