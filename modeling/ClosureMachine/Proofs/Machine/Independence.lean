import ClosureMachine.Proofs.Arena.Ledger
import ClosureMachine.Proofs.Machine.History
import ClosureMachine.Proofs.Machine.Procedures
import ClosureMachine.Proofs.Machine.Renaming
import ClosureMachine.Proofs.Machine.Twins
import Mathlib.Data.List.Forall2
import Mathlib.Logic.Equiv.Basic

/-!
Runs after a reset. A machine that was reset and a new machine of the same capacity, with the same
limit, host procedures and globals, give the same answers to the same jobs, whatever the first one
did before (`reset_makes_runs_independent`). Handles differ in their generations and in nothing
else: where the one machine has its generation, the other has its own.

The two are related in two steps. Renamed, the machine that was reset has the arena of the new one;
and then they differ only in how their globals are kept (`Peer`), which no step notices. Counters
are not among what a reset clears, but a run clears them when it starts, so machines are compared
where a run begins (`Replica`).

A host procedure sees the handles that it is given, and one that looks at their generations tells
the two machines apart (`generation_tells_runs_apart`). It must treat the two generations alike
(`Primitive.Impartial`), as the arithmetic procedures do.
-/

namespace ClosureMachine

/-- One run that a host asks for: the code and where to begin, the clock as `expired` tells it, and
the steps it may take. -/
structure Job where
  code : Code
  entry : NodeId
  expired : Nat → Bool
  fuel : Nat

/-- What a run came to, and the machine after it. -/
abbrev Answer := Option (Except MachineError Value) × Machine

/-- The answers are the same up to the generations of handles, which `ρ` translates. -/
structure Answer.SameUpTo (ρ : Nat → Nat) (r r' : Answer) : Prop where
  outcome : r'.1 = r.1.map (renameOutcome ρ (Value.rename ρ))
  regs : r'.2.regs = r.2.regs.rename ρ
  depth : r'.2.depth = r.2.depth
  stats : r'.2.stats = r.2.stats
  globals : ∀ id, r'.2.globals.get? id = (r.2.globals.get? id).map (Value.rename ρ)
  used : r'.2.heap.used = r.2.heap.used

namespace Machine

variable {ρ : Nat → Nat} {m m' : Machine} {code : Code}

def perform (m : Machine) (job : Job) : Answer :=
  m.runUntil job.code job.entry job.expired job.fuel

/-- The answers to jobs that are done one after the other. -/
def performAll : List Job → Machine → List Answer
  | [], _ => []
  | job :: jobs, m => m.perform job :: performAll jobs (m.perform job).2

/-! ## Machines whose globals are kept differently -/

/-- `m'` is `m` with globals that give every name the same value. -/
def Peer (m m' : Machine) : Prop := Twin (fun _ => none) m.limit m.stats.instructions m m'

theorem Peer.step (h : Peer m m') (code : Code) :
    (m'.step code).1 = (m.step code).1 ∧ Peer (m.step code).2 (m'.step code).2 := by
  have hl' : m'.exhaustedLimit? = m.exhaustedLimit? := by
    rw [exhaustedLimit?, exhaustedLimit?, h.limit_eq, h.count_eq]
  cases hl : m.exhaustedLimit? with
  | some limit =>
    simp only [Machine.step, hl', hl]
    exact ⟨trivial, h⟩
  | none =>
    obtain ⟨ho, ht⟩ := Twin.step h code hl (hl'.trans hl) fun _ _ => rfl
    obtain ⟨-, hself⟩ := (Twin.refl m).step code hl hl fun _ _ => rfl
    refine ⟨ho, ?_⟩
    rw [Peer, hself.limit_eq, hself.count_eq]
    exact ht

theorem Peer.proceed (h : Peer m m') (code : Code) (expired : Nat → Bool) (fuel : Nat) :
    (proceed code expired fuel m').1 = (proceed code expired fuel m).1 ∧
      Peer (proceed code expired fuel m).2 (proceed code expired fuel m').2 := by
  induction fuel generalizing m m' with
  | zero => exact ⟨rfl, h⟩
  | succ fuel ih =>
    obtain ⟨ho, hs⟩ := h.step code
    simp only [Machine.proceed, h.count_eq]
    split
    · exact ⟨rfl, h⟩
    · rcases hm : m.step code with ⟨o, m₁⟩
      rcases hm' : m'.step code with ⟨o', m₁'⟩
      rw [hm, hm'] at ho hs
      cases ho
      cases o with
      | error e => exact ⟨rfl, hs⟩
      | ok p =>
        cases p with
        | halted v => exact ⟨rfl, hs⟩
        | running => exact ih hs

/-- Renaming a machine beforehand or after a run is the same. -/
theorem moved_proceed (hρ : Function.Injective ρ) (hm : m.Portable ρ) (hc : code.Handleless)
    (expired : Nat → Bool) (fuel : Nat) :
    proceed code expired fuel (m.moved ρ) =
      ((proceed code expired fuel m).1.map (renameOutcome ρ (Value.rename ρ)),
        (proceed code expired fuel m).2.moved ρ) ∧
      Fitted m (proceed code expired fuel m).2 := by
  induction fuel generalizing m with
  | zero => exact ⟨rfl, .refl m⟩
  | succ fuel ih =>
    have hs := moved_step hρ hm.capacity_lt hm.impartial hc
    have hf := step_fitted hm.capacity_lt code
    have hn : (m.moved ρ).stats = m.stats := rfl
    simp only [proceed, hs, hn]
    split
    · exact ⟨rfl, .refl m⟩
    · rcases hm₁ : m.step code with ⟨o, m₁⟩
      rw [hm₁] at hf
      cases o with
      | error e => exact ⟨rfl, hf⟩
      | ok p =>
        cases p with
        | halted v => exact ⟨rfl, hf⟩
        | running =>
          obtain ⟨heq, hf₁⟩ := ih (hf.portable hm)
          exact ⟨heq, hf.trans hf₁⟩

/-! ## One run after the other -/

/-- Wherever they are started, `m'` is a peer of `m` with its handles renamed. -/
def Replica (ρ : Nat → Nat) (m m' : Machine) : Prop :=
  ∀ entry, Peer ((m.start entry).moved ρ) (m'.start entry)

theorem Peer.replica (h : Peer (m.moved ρ) m') : Replica ρ m m' := by
  intro entry
  have h : Twin _ _ _ (m.moved ρ) m' := h
  cases h with
  | intro g hg => exact .intro (m := (m.start entry).moved ρ) g hg

theorem Peer.sameUpTo {r r' : Answer} (h : Peer (r.2.moved ρ) r'.2)
    (ho : r'.1 = r.1.map (renameOutcome ρ (Value.rename ρ))) : r.SameUpTo ρ r' := by
  obtain ⟨o, m⟩ := r
  obtain ⟨o', m'⟩ := r'
  have h : Twin _ _ _ (m.moved ρ) m' := h
  cases h with
  | intro g hg =>
    refine ⟨ho, rfl, rfl, rfl, fun id => ?_, Heap.moved_used ρ m.heap⟩
    rw [← Globals.get?_rename]
    exact (hg id).trans Option.or_none

/-- A run keeps replicas what they are, and its answers are the same. -/
theorem Replica.perform (h : Replica ρ m m') (hρ : Function.Injective ρ) (hm : m.Portable ρ)
    {job : Job} (hc : job.code.Handleless) :
    Answer.SameUpTo ρ (m.perform job) (m'.perform job) ∧
      Replica ρ (m.perform job).2 (m'.perform job).2 ∧ Fitted m (m.perform job).2 := by
  obtain ⟨ho, hpeer⟩ := (h job.entry).proceed job.code job.expired job.fuel
  have hstart : (m.start job.entry).Portable ρ := ⟨hm.capacity_lt, hm.impartial⟩
  obtain ⟨heq, hf⟩ := moved_proceed hρ hstart hc job.expired job.fuel
  rw [heq] at ho hpeer
  have hpeer : Peer ((m.perform job).2.moved ρ) (m'.perform job).2 := hpeer
  exact ⟨hpeer.sameUpTo ho, hpeer.replica, hf.primitives, hf.capacity⟩

theorem Replica.performAll (h : Replica ρ m m') (hρ : Function.Injective ρ) (hm : m.Portable ρ)
    {jobs : List Job} (hc : ∀ job ∈ jobs, job.code.Handleless) :
    List.Forall₂ (Answer.SameUpTo ρ) (m.performAll jobs) (m'.performAll jobs) := by
  induction jobs generalizing m m' with
  | nil => exact .nil
  | cons job jobs ih =>
    obtain ⟨hs, hr, hf⟩ := h.perform hρ hm (hc job List.mem_cons_self)
    exact .cons hs (ih hr (hf.portable hm) fun j hj => hc j (List.mem_cons_of_mem _ hj))

/-! ## After a reset -/

theorem create_heap {settings : Settings} {gens gens' : Generations}
    (h : create settings gens = .ok (m, gens')) :
    ∃ n g, n < wordLimit ∧ m = { heap := ⟨n, #[], 0, g⟩, limit := m.limit } := by
  unfold create at h
  split at h
  · cases h
  · split at h
    · cases h
    · next heap _ hb =>
      cases h
      obtain ⟨hn, g, -, rfl⟩ := Arena.create_eq_ok hb
      exact ⟨_, g, hn, rfl⟩

/-- A machine that was reset and a new one with the same host procedures and globals. -/
theorem replica_of_reset {a a' b : Machine} {gens gens' other other' : Generations}
    {settings : Settings} {globals : Globals} (ha : a.reset gens = .ok (a', gens'))
    (hb : Machine.create settings other = .ok (b, other'))
    (hcap : b.heap.capacity = a.heap.capacity) (hlimit : b.limit = a.limit)
    (hglobals : ∀ id, globals.get? id = a'.globals.get? id)
    (hρ : ρ a'.heap.generation = b.heap.generation) (hp : ∀ p ∈ a.primitives, p.Impartial ρ) :
    a'.Portable ρ ∧ Replica ρ a' { b with primitives := a.primitives, globals } := by
  obtain ⟨heap, hheap, hregion, rfl⟩ := reset_eq_ok ha
  obtain ⟨n, g, hn, hb'⟩ := create_heap hb
  have hbheap : b.heap = heap.moved ρ := by
    rw [Heap.moved_of_empty hregion, hheap, ← hcap, hρ, hb']
  refine ⟨⟨?_, hp⟩, fun entry => ?_⟩
  · rw [hheap, ← hcap, hb']
    exact hn
  · have hstart : ({ b with primitives := a.primitives, globals } : Machine).start entry =
        ((Machine.start { a with heap, globals := a.globals.immediates, regs := {}, depth := 0 }
          entry).moved ρ).varied globals a.limit 0 := by
      simp only [start, moved, varied, hbheap, hlimit]
      rfl
    rw [hstart]
    refine .intro globals fun id => ?_
    rw [hglobals, Option.or_none]
    exact congrArg (Globals.get? · id) (Globals.rename_immediates ρ a.globals).symm

end Machine

/-- The arithmetic procedures see numbers only, and no handle is a number. -/
theorem Arithmetic.impartial_procedures {p : String × Arity × HostProcedure}
    (hp : p ∈ Arithmetic.procedures) (ρ : Nat → Nat) (name : SymbolId) :
    (Primitive.mk name p.2.1 p.2.2).Impartial ρ := by
  intro args
  change p.2.2 (args.map (Value.rename ρ)) = renameOutcome ρ (Value.rename ρ) (p.2.2 args)
  rw [procedures_map p hp (f := Value.rename ρ) fun v => by cases v <;> rfl]
  have ht := tame_procedures p hp args
  cases hr : p.2.2 args with
  | ok v =>
    rw [hr] at ht
    have hv : v.isBoxed = false := by
      cases v with
      | int n => rfl
      | bool b => rfl
      | _ => exact ht.elim
    rw [renameOutcome, Value.rename_of_unboxed ρ hv]
  | error e =>
    rw [hr] at ht
    cases e with
    | primitiveFailed name message => rfl
    | overflow op => rfl
    | _ => exact ht.elim

/-- After a reset a machine answers like a new one, up to generations. Of its globals it has kept
those that do not point into the arena. -/
theorem reset_makes_runs_independent {a a' b : Machine} {gens gens' other other' : Generations}
    {settings : Settings} {globals : Globals} (ha : a.reset gens = .ok (a', gens'))
    (hb : Machine.create settings other = .ok (b, other'))
    (hcap : b.heap.capacity = a.heap.capacity) (hlimit : b.limit = a.limit)
    (hglobals : ∀ id, globals.get? id = a'.globals.get? id)
    (hp : ∀ p ∈ a.primitives,
      p.Impartial (Equiv.swap a'.heap.generation b.heap.generation))
    (jobs : List Job) (hc : ∀ job ∈ jobs, job.code.Handleless) :
    (∀ id v, (id, v) ∈ a'.globals.bindings ↔
        (id, v) ∈ a.globals.bindings ∧ v.isBoxed = false) ∧
      List.Forall₂ (Answer.SameUpTo (Equiv.swap a'.heap.generation b.heap.generation))
        (a'.performAll jobs) ({ b with primitives := a.primitives, globals }.performAll jobs) := by
  obtain ⟨hm, hr⟩ := Machine.replica_of_reset ha hb hcap hlimit hglobals
    (Equiv.swap_apply_left a'.heap.generation b.heap.generation) hp
  refine ⟨fun id v => ?_, hr.performAll (Equiv.injective _) hm hc⟩
  obtain ⟨heap, -, -, rfl⟩ := Machine.reset_eq_ok ha
  simp [Globals.immediates]

/-- One entry makes a closure and halts; the other adds variable 1 to nothing. -/
def twoEntries : Code :=
  ⟨#[.halt, .close 0 0 0, .apply, .constant (.primitive 0) 2, .argument 3, .refer 1 4, .frame 0 5],
    #[[]]⟩

/-- Left over from earlier runs: a closure in the arena and bound to a name. -/
def veteran : Machine :=
  { heap := ⟨8, #[.closure ⟨0, 0, none⟩], 1, 3⟩
    globals := ⟨[(0, .closure ⟨⟨0, 3⟩⟩), (1, .int 5)]⟩
    primitives := #[⟨2, .atLeast 0, Arithmetic.add⟩]
    regs := { a := .closure ⟨⟨0, 3⟩⟩ }
    stats := { instructions := 40, maxDepth := 6 } }

/-- The same machine after a reset. -/
def veteranReset : Machine :=
  { veteran with heap := ⟨8, #[], 1, 7⟩, globals := ⟨[(1, .int 5)]⟩, regs := {}, depth := 0 }

/-- A new machine of the same capacity. -/
def newcomer : Machine := { heap := ⟨8, #[], 0, 9⟩ }

def twoJobs : List Job := [⟨twoEntries, 1, fun _ => false, 9⟩, ⟨twoEntries, 6, fun _ => false, 9⟩]

theorem reset_makes_runs_independent_veteran :
    veteran.reset ⟨7⟩ = .ok (veteranReset, ⟨8⟩) ∧
      Machine.create { arena := .ofBlocks 8 } ⟨9⟩ = .ok (newcomer, ⟨10⟩) ∧
      (∀ p ∈ veteran.primitives, p.Impartial (Equiv.swap 7 9)) ∧
      (∀ job ∈ twoJobs, job.code.Handleless) ∧
      List.Forall₂ (Answer.SameUpTo (Equiv.swap 7 9)) (veteranReset.performAll twoJobs)
        ({ newcomer with
          primitives := veteran.primitives, globals := ⟨[(1, .int 5)]⟩ }.performAll twoJobs) ∧
      (veteranReset.performAll twoJobs).map Prod.fst =
        [some (.ok (.closure ⟨⟨0, 7⟩⟩)), some (.ok (.int 5))] := by
  have ha : veteran.reset ⟨7⟩ = .ok (veteranReset, ⟨8⟩) := rfl
  have hb : Machine.create { arena := .ofBlocks 8 } ⟨9⟩ = .ok (newcomer, ⟨10⟩) := rfl
  have hp : ∀ p ∈ veteran.primitives, p.Impartial (Equiv.swap 7 9) := by
    intro p hp
    simp only [veteran, List.mem_toArray, List.mem_singleton] at hp
    subst hp
    exact Arithmetic.impartial_procedures (p := ("+", .atLeast 0, Arithmetic.add))
      List.mem_cons_self _ 2
  have hc : ∀ job ∈ twoJobs, job.code.Handleless := by decide
  exact ⟨ha, hb, hp, hc,
    (reset_makes_runs_independent ha hb rfl rfl (fun _ => rfl) hp twoJobs hc).2, rfl⟩

/-- Answers with the generation in the handle that it is given. -/
def readGeneration : HostProcedure
  | [.closure r] => .ok (.int (Int64.ofNat r.addr.generation))
  | _ => .ok .unspecified

/-- The same machine with a host procedure that looks at generations. -/
def Machine.curious (m : Machine) : Machine :=
  { m with primitives := #[⟨2, .exactly 1, readGeneration⟩] }

/-- Makes a closure and asks the host procedure for its generation. -/
def askingJob : Job where
  code := ⟨#[.halt, .apply, .constant (.primitive 0) 1, .argument 2, .close 0 0 3, .frame 0 4],
    #[[]]⟩
  entry := 5
  expired _ := false
  fuel := 9

/-- A host procedure that looks at generations tells a machine that was reset from a new one,
however handles are translated. So do the counters of the latest run, until there is another. -/
theorem generation_tells_runs_apart :
    veteran.curious.reset ⟨7⟩ = .ok (veteranReset.curious, ⟨8⟩) ∧
      Machine.create { arena := .ofBlocks 8 } ⟨9⟩ = .ok (newcomer, ⟨10⟩) ∧
      askingJob.code.Handleless ∧
      (∀ ρ, ¬ Answer.SameUpTo ρ (veteranReset.curious.perform askingJob)
        ({ newcomer.curious with globals := ⟨[(1, .int 5)]⟩ }.perform askingJob)) ∧
      veteranReset.curious.stats ≠ newcomer.curious.stats := by
  refine ⟨rfl, rfl, by decide, ?_, by decide⟩
  intro ρ h
  have houtcome : some (.ok (.int 9)) = some (Except.ok (ε := MachineError) (Value.int 7)) :=
    h.outcome
  cases houtcome

end ClosureMachine
