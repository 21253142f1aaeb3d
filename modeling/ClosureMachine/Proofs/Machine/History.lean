import Mathlib.Logic.Relation
import ClosureMachine.Proofs.Machine.Coherent

/-!
What a host may do with a machine. A process is a machine with the code it runs. The host starts
it at any entry of any code, takes single steps, also after failed ones, or runs it, extends the
code between instructions, and changes globals, host procedures and the limit as it likes;
resetting the machine begins a new epoch. Between two starts only one code is used, though it may
grow.

`Later.coherent` and `Reachable.coherent` say what holds of every process that comes about so.
-/

namespace ClosureMachine

/-- A machine together with the code it runs. -/
structure Process where
  machine : Machine
  code : Code

namespace Process

/-- One act of the host within an epoch. -/
inductive Move : Process → Process → Prop
  | step (m : Machine) (c : Code) : Move ⟨m, c⟩ ⟨(m.step c).2, c⟩
  | start (m : Machine) (c c' : Code) (entry : NodeId) : Move ⟨m, c⟩ ⟨m.start entry, c'⟩
  | run (m : Machine) (c c' : Code) (entry : NodeId) (expired : Nat → Bool) (fuel : Nat) :
    Move ⟨m, c⟩ ⟨(m.runUntil c' entry expired fuel).2, c'⟩
  | grow (m : Machine) {c c' : Code} : c.Grows c' → Move ⟨m, c⟩ ⟨m, c'⟩
  | adjust (m : Machine) (c : Code) (globals : Globals) (primitives : Array Primitive)
    (limit : Option Nat) : Move ⟨m, c⟩ ⟨{ m with globals, primitives, limit }, c⟩

/-- `q` comes after `p` in the same epoch. -/
abbrev Later : Process → Process → Prop := Relation.ReflTransGen Move

/-- The processes that a host can bring about. -/
inductive Reachable : Process → Prop
  | create {settings : Settings} {gens gens' : Generations} {m : Machine} (c : Code) :
    Machine.create settings gens = .ok (m, gens') → Reachable ⟨m, c⟩
  | move {p q : Process} : Reachable p → Move p q → Reachable q
  | reset {m m' : Machine} {c : Code} {gens gens' : Generations} :
    Reachable ⟨m, c⟩ → m.reset gens = .ok (m', gens') → Reachable ⟨m', c⟩

end Process

/-- A machine with nothing stored and cleared registers is coherent. -/
theorem Machine.coherent_of_empty {m : Machine} (hw : m.heap.capacity < wordLimit)
    (hu : m.heap.used = 0) (hr : m.regs = {}) (hd : m.depth = 0) (code : Code) :
    m.Coherent code := by
  have hl : m.heap.Linked 0 := .empty (by omega) hw (by omega)
  refine ⟨⟨⟨hl, Nat.zero_le _, by simp [hr]⟩, ?_⟩, .inl ?_⟩
  · intro o k ho
    exact absurd (Heap.cell?_lt ho) (by omega)
  · rw [hr, hd]
    exact .empty

theorem Machine.create_eq_ok {settings : Settings} {gens gens' : Generations} {m : Machine}
    (h : Machine.create settings gens = .ok (m, gens')) :
    ∃ heap : Heap, heap.capacity < wordLimit ∧ heap.region = #[] ∧
      m = { heap, limit := settings.exec.instructionLimit } := by
  unfold create at h
  split at h
  · cases h
  · split at h
    · cases h
    · next heap _ hb =>
      cases h
      unfold ArenaSettings.build Arena.create at hb
      split at hb
      · cases hb
      · next hc =>
        split at hb
        · cases hb
        · cases hb
          exact ⟨_, Nat.not_le.mp (fun hle => hc (.inr hle)), rfl, rfl⟩

theorem Machine.reset_eq_ok {m m' : Machine} {gens gens' : Generations}
    (h : m.reset gens = .ok (m', gens')) :
    ∃ heap : Heap, heap.capacity = m.heap.capacity ∧ heap.region = #[] ∧
      m' = { m with heap, globals := m.globals.immediates, regs := {}, depth := 0 } := by
  unfold reset at h
  split at h
  · cases h
  · next heap _ hb =>
    cases h
    unfold Arena.reset at hb
    split at hb
    · cases hb
    · cases hb
      refine ⟨_, ?_, ?_, rfl⟩
      · rfl
      · rfl

namespace Process

/-- One act of the host leaves the machine coherent and keeps every record of its heap. -/
theorem Move.coherent {p q : Process} (h : Move p q) (hp : p.machine.Coherent p.code) :
    q.machine.Coherent q.code ∧ p.machine.heap.Keeps 0 q.machine.heap := by
  cases h with
  | step m c => exact Machine.step_coherent hp
  | start m c c' entry => exact ⟨hp.start entry c', Heap.Keeps.refl _ _⟩
  | run m c c' entry expired fuel =>
    exact Machine.proceed_coherent expired fuel (hp.start entry c')
  | grow m hg =>
    refine ⟨⟨hp.sound, hp.stack.imp id ?_⟩, Heap.Keeps.refl _ _⟩
    rintro ⟨var, hn⟩
    exact ⟨var, hg.node? hn⟩
  | adjust m c globals primitives limit =>
    exact ⟨⟨hp.sound.congr rfl rfl, hp.stack⟩, Heap.Keeps.refl _ _⟩

theorem Later.coherent {p q : Process} (h : Later p q) (hp : p.machine.Coherent p.code) :
    q.machine.Coherent q.code ∧ p.machine.heap.Keeps 0 q.machine.heap := by
  induction h with
  | refl => exact ⟨hp, Heap.Keeps.refl _ _⟩
  | tail _ hm ih =>
    obtain ⟨hc, hk⟩ := ih
    obtain ⟨hc', hk'⟩ := hm.coherent hc
    exact ⟨hc', hk.trans hk'⟩

theorem Reachable.coherent {p : Process} (h : Reachable p) : p.machine.Coherent p.code := by
  induction h with
  | create c hm =>
    obtain ⟨heap, hw, he, rfl⟩ := Machine.create_eq_ok hm
    exact Machine.coherent_of_empty hw (by simp [Arena.used, he]) rfl rfl c
  | move _ hm ih => exact (hm.coherent ih).1
  | reset _ hm ih =>
    obtain ⟨heap, hw, he, rfl⟩ := Machine.reset_eq_ok hm
    refine Machine.coherent_of_empty ?_ (by simp [Arena.used, he]) rfl rfl _
    rw [hw]
    exact ih.sound.rooted.linked.capacity_lt

end Process

end ClosureMachine
