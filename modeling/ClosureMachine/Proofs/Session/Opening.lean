import ClosureMachine.Proofs.Lowering.Correct
import ClosureMachine.Proofs.Machine.History
import ClosureMachine.Session

/-!
How a session begins and how it takes in a source text. `equipped` describes the machine after host
procedures have been registered: each has its position and its name. `compile_spec` describes a
session after a text has been lowered, whether or not that succeeded.
-/

namespace ClosureMachine

/-- Host procedures have been registered, each after the other. -/
structure Equipped (ps : List (String × Arity × HostProcedure)) (m : Machine) (t : SymbolTable)
    (m' : Machine) (t' : SymbolTable) : Prop where
  symbols : t.Grows t'
  same : m' = { m with primitives := m'.primitives, globals := m'.globals }
  procedures : m'.procedures = m.procedures ++ ps.map Prod.snd
  kept : ∀ id v, m.globals.get? id = some v → (∀ p ∈ ps, t'.find? p.1 ≠ some id) →
    m'.globals.get? id = some v
  bound : ∀ (i : Nat) p, ps[i]? = some p → ∃ id, t'.find? p.1 = some id ∧
    m'.globals.get? id = some (.primitive (m.primitives.size + i))
  fresh : ∀ id v, (id, v) ∈ m'.globals.bindings → (id, v) ∈ m.globals.bindings ∨
    ∃ (i : Nat) (p : _), ps[i]? = some p ∧ t'.find? p.1 = some id ∧
      v = .primitive (m.primitives.size + i)
  distinct : m.globals.Distinct → m'.globals.Distinct

theorem equipped_nil (m : Machine) (t : SymbolTable) : Equipped [] m t m t where
  symbols := .refl t
  same := rfl
  procedures := by simp
  kept _ _ h _ := h
  bound := by simp
  fresh _ _ h := .inl h
  distinct h := h

/-- One more procedure in front. -/
theorem Equipped.cons {name : String} {arity : Arity} {run : HostProcedure}
    {ps : List (String × Arity × HostProcedure)} {m m' : Machine} {t t' : SymbolTable}
    (hname : ∀ p ∈ ps, p.1 ≠ name) (hsize : m.primitives.size < wordLimit)
    (h : Equipped ps (m.definePrimitive t name arity run).2.1
      (m.definePrimitive t name arity run).2.2 m' t') :
    Equipped ((name, arity, run) :: ps) m t m' t' := by
  have hid : t'.find? name = some (t.intern name).1 := h.symbols.find? (t.find?_intern name)
  have hfresh : ∀ p ∈ ps, t'.find? p.1 ≠ some (t.intern name).1 :=
    fun p hp heq => hname p hp (SymbolTable.find?_inj heq hid)
  have hglobals : (m.definePrimitive t name arity run).2.1.globals =
      m.globals.define (t.intern name).1 (.primitive m.primitives.size) := by
    simp only [Machine.definePrimitive, Nat.mod_eq_of_lt hsize]
  have hsize' : (m.definePrimitive t name arity run).2.1.primitives.size =
      m.primitives.size + 1 := by simp [Machine.definePrimitive]
  constructor
  case symbols => exact (t.grows_intern name).trans h.symbols
  case same => exact h.same
  case procedures =>
    rw [h.procedures]
    simp [Machine.procedures, Machine.definePrimitive]
  case kept =>
    intro id v hv hne
    refine h.kept id v ?_ fun p hp => hne p (List.mem_cons_of_mem _ hp)
    rw [hglobals, Globals.get?_define, if_neg]
    · exact hv
    · rintro rfl
      exact hne _ (List.mem_cons_self ..) hid
  case bound =>
    rintro (_ | i) p hp
    · cases hp
      refine ⟨_, hid, h.kept _ _ ?_ hfresh⟩
      rw [hglobals, Globals.get?_define, if_pos rfl]
      rfl
    · obtain ⟨id, hfind, hget⟩ := h.bound i p hp
      rw [hsize', Nat.add_right_comm, Nat.add_assoc] at hget
      exact ⟨id, hfind, hget⟩
  case fresh =>
    intro id v hv
    rcases h.fresh id v hv with hold | ⟨i, p, hp, hfind, rfl⟩
    · rw [hglobals] at hold
      rcases Globals.mem_define hold with ⟨rfl, rfl⟩ | hold
      · exact .inr ⟨0, _, rfl, hid, rfl⟩
      · exact .inl hold
    · rw [hsize', Nat.add_right_comm, Nat.add_assoc]
      exact .inr ⟨i + 1, p, hp, hfind, rfl⟩
  case distinct => exact fun hd => h.distinct (hglobals ▸ hd.define _ _)

theorem equipped (ps : List (String × Arity × HostProcedure)) (hn : (ps.map Prod.fst).Nodup)
    (m : Machine) (t : SymbolTable) (hsize : m.primitives.size + ps.length ≤ wordLimit) :
    Equipped ps m t (Session.equip m t ps).1 (Session.equip m t ps).2 := by
  induction ps generalizing m t with
  | nil => exact equipped_nil m t
  | cons p ps ih =>
    obtain ⟨name, arity, run⟩ := p
    obtain ⟨hname, hn⟩ := List.nodup_cons.mp hn
    rw [List.length_cons] at hsize
    refine .cons (fun p hp heq => hname (List.mem_map.mpr ⟨p, hp, heq⟩)) (by omega) (ih hn _ _ ?_)
    simp only [Machine.definePrimitive, Array.size_push]
    omega

namespace Session

/-- A new session has an empty arena, no code, and its procedures. -/
theorem create_spec {settings : Settings} {ps : List (String × Arity × HostProcedure)}
    (hn : (ps.map Prod.fst).Nodup) (hsize : ps.length ≤ wordLimit) {symbols symbols' : SymbolTable}
    {gens gens' : Generations} {s : Session}
    (h : Session.create settings ps symbols gens = (.ok (s, gens'), symbols')) :
    ∃ (heap : Heap) (t : SymbolTable), heap.capacity < wordLimit ∧ heap.region = #[] ∧
      s.code = {} ∧ s.keywords.Fits symbols' ∧
      Equipped ps { heap, limit := settings.exec.instructionLimit } t s.machine symbols' := by
  unfold create at h
  cases hm : Machine.create settings gens with
  | error e =>
    simp only [hm] at h
    cases h
  | ok r =>
    obtain ⟨m, gens₁⟩ := r
    obtain ⟨heap, hw, he, rfl⟩ := Machine.create_eq_ok hm
    simp only [hm] at h
    cases h
    have heq := equipped ps hn { heap, limit := settings.exec.instructionLimit }
      (Keywords.intern symbols).2 (by simpa using hsize)
    exact ⟨heap, _, hw, he, rfl, (Keywords.fits_intern symbols).mono heq.symbols, heq⟩

/-- What lowering is given of a session. -/
def workspace (s : Session) (symbols : SymbolTable) : Workspace :=
  ⟨symbols, s.keywords, s.code, s.machine.globals⟩

/-- The session after lowering. -/
def updated (s : Session) (w : Workspace) : Session :=
  { s with code := w.code, machine := { s.machine with globals := w.globals } }

/-- A text is lowered as its forms are, if it can be read. -/
theorem compile_spec {s : Session} {symbols : SymbolTable} (h : (s.workspace symbols).Ready)
    (source : String) :
    ∃ entry w', s.compile symbols source = (entry, s.updated w', w'.symbols) ∧
      (s.workspace symbols).Extends w' ∧
      match Form.readAll? source with
      | none => entry = none
      | some forms => w'.code.size < wordLimit →
        Lowering.Completes (s.workspace symbols) forms entry w' := by
  cases hf : Form.readAll? source with
  | none =>
    refine ⟨none, s.workspace symbols, ?_, .refl _, rfl⟩
    simp only [compile, hf]
    rfl
  | some forms =>
    obtain ⟨entry, w', hrun, hx, hdone⟩ := Lowering.run_program h forms
    refine ⟨entry, w', ?_, hx, hdone⟩
    simp only [compile, hf]
    rw [show (⟨symbols, s.keywords, s.code, s.machine.globals⟩ : Workspace) =
      s.workspace symbols from rfl, hrun]
    rfl

theorem eval_of_none {s s' : Session} {symbols symbols' : SymbolTable} {source : String}
    (h : s.compile symbols source = (none, s', symbols')) (fuel : Nat) :
    s.eval symbols source fuel = (some (.error .badSource), s', symbols') := by
  simp only [eval, h]

theorem eval_of_entry {s s' : Session} {symbols symbols' : SymbolTable} {source : String}
    {entry : NodeId} (h : s.compile symbols source = (some entry, s', symbols')) (fuel : Nat) :
    s.eval symbols source fuel =
      ((s'.run entry (fun _ => false) fuel).1.map fun r => r.mapError .failed,
        (s'.run entry (fun _ => false) fuel).2, symbols') := by
  simp only [eval, h]

end Session

/-! ## A small session -/

/-- A session with an arena of 64 blocks. -/
def smallSession : Session × SymbolTable :=
  match Session.create { arena := .ofBlocks 64 } Arithmetic.procedures {} {} with
  | (.ok (s, _), symbols) => (s, symbols)
  | (.error _, symbols) => (⟨{ heap := ⟨0, #[], 0, 0⟩ }, {}, ⟨[]⟩⟩, symbols)

theorem smallSession_created :
    ∃ gens, Session.create { arena := .ofBlocks 64 } Arithmetic.procedures {} {} =
      (.ok (smallSession.1, gens), smallSession.2) := by
  unfold smallSession
  split
  · next gens _ h => exact ⟨gens, h⟩
  · next h =>
    have hok : (Session.create { arena := .ofBlocks 64 } Arithmetic.procedures {} {}).1.isOk :=
      by decide +kernel
    rw [h] at hok
    cases hok

/-- The same after a program that keeps a continuation in a global. -/
def keptSession : Session × SymbolTable :=
  (smallSession.1.eval smallSession.2
    "(define k 0) (+ 1 (call/cc (lambda (c) (set! k c) 1)))" 100).2

end ClosureMachine
