import ClosureMachine.Proofs.Lowering.Respelling
import ClosureMachine.Proofs.Machine.Independence
import ClosureMachine.Proofs.Session.Opening
import Mathlib.Data.Option.Basic

/-!
Sessions that share a symbol table. Any number of sessions are started and evaluate texts in any
order, and others intern names in between, so the ids that a session's names get depend on what all
of them did before. Its reports do not: they are those of the same session when it is alone over an
empty table (`shared_sessions_do_not_interfere`).

A session among others and the session alone are related by `Session.Alike`: every translation
between the two symbol tables takes the one to the other, with handles renamed to the other
generation. A report names symbols by their spelling, and ids that every translation takes to the
same place are spelled the same (`Machine.render_alike`).
-/

namespace ClosureMachine

/-! ## Reports -/

/-- How an evaluation ended, in words. -/
inductive Ending where
  | value (text : String)
  | failed (text : String)
  | overflow (op : CheckedOp)
  /-- The text could not be read or lowered. -/
  | refused
  /-- The steps did not suffice. -/
  | unfinished
  deriving DecidableEq, Repr

/-- What is seen of an evaluation. -/
structure Report where
  ending : Ending
  stats : Statistics
  depth : Nat
  used : Nat
  deriving DecidableEq, Repr

namespace Session

def ending (s : Session) (symbols : SymbolTable) : Option (Except SessionError Value) → Ending
  | none => .unfinished
  | some (.ok v) => .value (s.machine.render symbols v)
  | some (.error .badSource) => .refused
  | some (.error (.failed (.overflow op))) => .overflow op
  | some (.error (.failed e)) => .failed (s.machine.errorText symbols e)

def report (s : Session) (symbols : SymbolTable) (result : Option (Except SessionError Value)) :
    Report :=
  ⟨s.ending symbols result, s.machine.stats, s.machine.depth, s.machine.heap.used⟩

end Session

/-- Something done by the session `who`, or by someone else who has the table. -/
inductive Act where
  /-- A session is started, or started anew; `gens` is the state of the generation counter. -/
  | start (who : Nat) (settings : Settings) (gens : Generations)
  | eval (who : Nat) (source : String) (fuel : Nat)
  | intern (name : String)

def Act.who? : Act → Option Nat
  | start who _ _ | eval who _ _ => some who
  | intern _ => none

/-- A symbol table and the sessions that share it. -/
structure Commons where
  symbols : SymbolTable := {}
  sessions : Nat → Option Session := fun _ => none

namespace Commons

/-- The table has become `symbols` and the session `who` has become `s`. -/
def put (c : Commons) (symbols : SymbolTable) (who : Nat) (s : Session) : Commons :=
  ⟨symbols, Function.update c.sessions who (some s)⟩

theorem put_sessions_self (c : Commons) (symbols : SymbolTable) (who : Nat)
    (s : Session) : (c.put symbols who s).sessions who = some s := Function.update_self ..

theorem put_sessions_of_ne (c : Commons) (symbols : SymbolTable) {who i : Nat} (h : i ≠ who)
    (s : Session) : (c.put symbols who s).sessions i = c.sessions i := Function.update_of_ne h ..

/-- One act, with the report of it if it is an evaluation. A session that cannot be started leaves
things as they are, but for the names it has interned. -/
def act (c : Commons) : Act → Option Report × Commons
  | .start who settings gens =>
    match Session.create settings Arithmetic.procedures c.symbols gens with
    | (.ok (s, _), symbols) => (none, c.put symbols who s)
    | (.error _, symbols) => (none, { c with symbols })
  | .eval who source fuel =>
    match c.sessions who with
    | none => (none, c)
    | some s =>
      let (result, s, symbols) := s.eval c.symbols source fuel
      (some (s.report symbols result), c.put symbols who s)
  | .intern name => (none, { c with symbols := (c.symbols.intern name).2 })

/-- The reports of one session, in order. -/
def reports (who : Nat) : List Act → Commons → List Report
  | [], _ => []
  | a :: acts, c =>
    (if a.who? = some who then (c.act a).1.toList else []) ++ reports who acts (c.act a).2

end Commons

/-- The same act with another generation counter. -/
def Act.counting (gens : Generations) : Act → Act
  | start who settings _ => start who settings gens
  | a => a

/-- What one session does, without the others. -/
def solo (who : Nat) (gens : Generations) (acts : List Act) : List Act :=
  (acts.filter (·.who? = some who)).map (Act.counting gens)

/-! ## Wording -/

namespace Machine

variable {ρ : Nat → Nat} {t t' : SymbolTable} {m m' : Machine}

theorem render_alike (hm : ∀ σ, t.Translates t' σ → m' = (m.respelled σ).moved ρ) {v v' : Value}
    (hv : ∀ σ, t.Translates t' σ → v' = (v.respell σ).rename ρ) :
    m'.render t' v' = m.render t v := by
  have hσ := SymbolTable.translates_translation t t' 0
  have hv₀ := hv _ hσ
  cases v with
  | symbol id =>
    subst hv₀
    exact SymbolTable.display_translated fun σ hσ => Value.symbol.inj (hv σ hσ)
  | primitive i =>
    subst hv₀
    have hprimitive : ∀ σ, t.Translates t' σ →
        m'.primitive? i = (m.primitive? i).map (Primitive.respell σ) := by
      intro σ hσ
      rw [hm σ hσ, ← primitive?_respelled]
      rfl
    have hname : (m'.primitive? i).bind (fun p => t'.name? p.name) =
        (m.primitive? i).bind fun p => t.name? p.name := by
      cases hp : m.primitive? i with
      | none =>
        rw [hprimitive _ hσ, hp]
        rfl
      | some p =>
        simp only [hp, Option.map_some] at hprimitive
        rw [hprimitive _ hσ]
        refine SymbolTable.name?_translated fun σ hσ' => ?_
        have hsame := Option.some.inj ((hprimitive _ hσ).symm.trans (hprimitive σ hσ'))
        exact congrArg Primitive.name hsame
    simp only [Value.respell, Value.rename, render, hname]
  | _ =>
    subst hv₀
    rfl

theorem errorText_alike (hm : ∀ σ, t.Translates t' σ → m' = (m.respelled σ).moved ρ)
    {e e' : MachineError} (he : ∀ σ, t.Translates t' σ → e' = (e.respell σ).rename ρ) :
    m'.errorText t' e' = m.errorText t e := by
  have he₀ := he _ (SymbolTable.translates_translation t t' 0)
  cases e with
  | unboundVariable id =>
    obtain ⟨id', rfl⟩ : ∃ id', e' = .unboundVariable id' := ⟨_, he₀⟩
    have hid : t'.display id' = t.display id :=
      SymbolTable.display_translated fun σ hσ => MachineError.unboundVariable.inj (he σ hσ)
    unfold errorText MachineError.message
    dsimp only
    rw [hid]
  | notCallable v =>
    obtain ⟨v', rfl⟩ : ∃ v', e' = .notCallable v' := ⟨_, he₀⟩
    have hv : m'.render t' v' = m.render t v :=
      render_alike hm fun σ hσ => MachineError.notCallable.inj (he σ hσ)
    unfold errorText MachineError.message
    dsimp only
    rw [hv]
  | arityMismatch v expected actual =>
    obtain ⟨v', rfl⟩ : ∃ v', e' = .arityMismatch v' expected actual := ⟨_, he₀⟩
    have hv : m'.render t' v' = m.render t v :=
      render_alike hm fun σ hσ => (MachineError.arityMismatch.inj (he σ hσ)).1
    unfold errorText MachineError.message
    dsimp only
    rw [hv]
  | _ =>
    subst he₀
    rfl

end Machine

/-! ## One session over two tables -/

/-- Every translation of ids takes one session to the other, where handles are renamed by `ρ`. -/
structure Session.Alike (ρ : Nat → Nat) (t t' : SymbolTable) (s s' : Session) : Prop where
  injective : Function.Injective ρ
  keywords : s.keywords.Fits t
  keywords' : s'.keywords.Fits t'
  handleless : s.code.Handleless
  code : ∀ σ, t.Translates t' σ → s'.code = s.code.respell σ
  machine : ∀ σ, t.Translates t' σ → s'.machine = (s.machine.respelled σ).moved ρ
  capacity_lt : s.machine.heap.capacity < wordLimit
  arithmetic : ∀ p ∈ s.machine.primitives, ∃ q ∈ Arithmetic.procedures, p.run = q.2.2

theorem Code.Handleless.respell {c : Code} (h : c.Handleless) (σ : SymbolId → SymbolId) :
    (c.respell σ).Handleless := by
  intro n' hn'
  rw [Code.respell, Array.toList_map, List.mem_map] at hn'
  obtain ⟨n, hn, rfl⟩ := hn'
  have hn := h n hn
  cases n with
  | constant v next => cases v <;> exact hn
  | _ => exact hn

namespace Session

variable {ρ : Nat → Nat} {t t' u u' : SymbolTable} {s s' : Session}

theorem Alike.mono (h : Alike ρ t t' s s') (hg : t.Grows u) (hg' : t'.Grows u') :
    Alike ρ u u' s s' where
  injective := h.injective
  keywords := h.keywords.mono hg
  keywords' := h.keywords'.mono hg'
  handleless := h.handleless
  code σ hσ := h.code σ (hσ.anti hg hg')
  machine σ hσ := h.machine σ (hσ.anti hg hg')
  capacity_lt := h.capacity_lt
  arithmetic := h.arithmetic

theorem Alike.workspace (h : Alike ρ t t' s s') :
    (s.workspace t).Alike ρ (s'.workspace t') where
  keywords := h.keywords
  keywords' := h.keywords'
  handleless := h.handleless
  code := h.code
  globals σ hσ := congrArg Machine.globals (h.machine σ hσ)

theorem Alike.updated (h : Alike ρ t t' s s') {w w' : Workspace} (hw : w.Alike ρ w')
    (hg : t.Grows w.symbols) (hg' : t'.Grows w'.symbols) :
    Alike ρ w.symbols w'.symbols (s.updated w) (s'.updated w') where
  injective := h.injective
  keywords := h.keywords.mono hg
  keywords' := h.keywords'.mono hg'
  handleless := hw.handleless
  code := hw.code
  machine σ hσ := by
    have hm := h.machine σ (hσ.anti hg hg')
    simp only [Session.updated, hw.globals σ hσ, hm]
    rfl
  capacity_lt := h.capacity_lt
  arithmetic := h.arithmetic

theorem Alike.impartial (h : Alike ρ t t' s s') (p : Primitive) (hp : p ∈ s.machine.primitives) :
    p.Impartial ρ := by
  obtain ⟨q, hq, hrun⟩ := h.arithmetic p hp
  have himpartial := Arithmetic.impartial_procedures hq ρ p.name
  rwa [Primitive.Impartial, ← hrun] at himpartial

theorem Alike.oblivious (h : Alike ρ t t' s s') (σ : SymbolId → SymbolId) (p : Primitive)
    (hp : p ∈ s.machine.primitives) : p.Oblivious σ := by
  obtain ⟨q, hq, hrun⟩ := h.arithmetic p hp
  have hoblivious := Arithmetic.oblivious_procedures hq σ p.name
  rwa [Primitive.Oblivious, ← hrun] at hoblivious

/-- The outcomes are the same, and so are the machines, up to ids and generations. -/
theorem Alike.proceed (h : Alike ρ t t' s s') (entry : NodeId) (fuel : Nat)
    {σ : SymbolId → SymbolId} (hσ : t.Translates t' σ) :
    s'.machine.runUntil s'.code entry (fun _ => false) fuel =
      ((s.machine.runUntil s.code entry (fun _ => false) fuel).1.map fun o =>
          renameOutcome ρ (Value.rename ρ) (respellOutcome σ (Value.respell σ) o),
        ((s.machine.runUntil s.code entry (fun _ => false) fuel).2.respelled σ).moved ρ) := by
  have hstart : s'.machine.start entry = ((s.machine.start entry).respelled σ).moved ρ := by
    rw [h.machine σ hσ]
    rfl
  have hportable : ((s.machine.start entry).respelled σ).Portable ρ := by
    refine ⟨h.capacity_lt, fun p hp => ?_⟩
    obtain ⟨q, hq, rfl⟩ := Array.mem_map.mp hp
    exact h.impartial q hq
  have hmoved := (Machine.moved_proceed h.injective hportable (h.handleless.respell σ)
    (fun _ => false) fuel).1
  have hrespelled := Machine.respelled_proceed (m := s.machine.start entry) hσ.injective
    h.capacity_lt (h.oblivious σ) s.code (fun _ => false) fuel
  rw [Machine.runUntil, hstart, h.code σ hσ, hmoved, hrespelled, Option.map_map]
  rfl

theorem Alike.run (h : Alike ρ t t' s s') (entry : NodeId) (fuel : Nat) :
    Alike ρ t t' (s.run entry (fun _ => false) fuel).2 (s'.run entry (fun _ => false) fuel).2 := by
  have hportable : (s.machine.start entry).Portable ρ := ⟨h.capacity_lt, h.impartial⟩
  have hfitted := (Machine.moved_proceed h.injective hportable h.handleless (fun _ => false) fuel).2
  exact
    { injective := h.injective
      keywords := h.keywords
      keywords' := h.keywords'
      handleless := h.handleless
      code := h.code
      machine := fun σ hσ => congrArg Prod.snd (h.proceed entry fuel hσ)
      capacity_lt := Nat.lt_of_le_of_lt (Nat.le_of_eq hfitted.capacity) h.capacity_lt
      arithmetic := fun p hp => h.arithmetic p (hfitted.primitives ▸ hp) }

theorem Alike.ending (h : Alike ρ t t' s s') {o o' : Option (Except MachineError Value)}
    (ho : ∀ σ, t.Translates t' σ → o' = o.map fun o =>
      renameOutcome ρ (Value.rename ρ) (respellOutcome σ (Value.respell σ) o)) :
    s'.ending t' (o'.map fun r => r.mapError .failed) =
      s.ending t (o.map fun r => r.mapError .failed) := by
  have ho₀ := ho _ (SymbolTable.translates_translation t t' 0)
  rcases o with _ | e | v
  · subst ho₀
    rfl
  · obtain ⟨e', rfl⟩ : ∃ e', o' = some (.error e') := ⟨_, ho₀⟩
    have he : ∀ σ, t.Translates t' σ → e' = (e.respell σ).rename ρ :=
      fun σ hσ => Except.error.inj (Option.some.inj (ho σ hσ))
    have htext := Machine.errorText_alike h.machine he
    have he₀ := he _ (SymbolTable.translates_translation t t' 0)
    cases e with
    | overflow op =>
      subst he₀
      rfl
    | _ =>
      subst he₀
      exact congrArg Ending.failed htext
  · obtain ⟨v', rfl⟩ : ∃ v', o' = some (.ok v') := ⟨_, ho₀⟩
    have hv : ∀ σ, t.Translates t' σ → v' = (v.respell σ).rename ρ :=
      fun σ hσ => Except.ok.inj (Option.some.inj (ho σ hσ))
    exact congrArg Ending.value (Machine.render_alike h.machine hv)

theorem Alike.report (h : Alike ρ t t' s s') {r r' : Option (Except SessionError Value)}
    (hr : s'.ending t' r' = s.ending t r) : s'.report t' r' = s.report t r := by
  rw [Session.report, Session.report, hr,
    h.machine _ (SymbolTable.translates_translation t t' 0), Machine.moved_heap, Heap.moved_used,
    Machine.respelled_heap, Heap.respelled_used]
  rfl

/-! ## What a session does -/

theorem Alike.compile (h : Alike ρ t t' s s') (source : String) :
    ∃ entry w w', s.compile t source = (entry, s.updated w, w.symbols) ∧
      s'.compile t' source = (entry, s'.updated w', w'.symbols) ∧
      t.Grows w.symbols ∧ t'.Grows w'.symbols ∧
      Alike ρ w.symbols w'.symbols (s.updated w) (s'.updated w') := by
  cases hf : Form.readAll? source with
  | none =>
    refine ⟨none, s.workspace t, s'.workspace t', ?_, ?_, .refl _, .refl _, h⟩
    · simp only [Session.compile, hf]
      rfl
    · simp only [Session.compile, hf]
      rfl
  | some forms =>
    obtain ⟨o, o', w, w', hrun, hrun', hg, hg', hw, ho⟩ :=
      Lowering.matched_program forms h.workspace
    have hentry : o' = o := by
      have hsame := ho _ (SymbolTable.translates_translation _ _ 0)
      rwa [Option.map_id_fun'] at hsame
    subst hentry
    refine ⟨o', w, w', ?_, ?_, hg, hg', h.updated hw hg hg'⟩
    · rw [Session.workspace] at hrun
      simp only [Session.compile, hf, hrun]
      rfl
    · rw [Session.workspace] at hrun'
      simp only [Session.compile, hf, hrun']
      rfl

/-- An evaluation gets the same report over both tables. -/
theorem Alike.eval (h : Alike ρ t t' s s') (source : String) (fuel : Nat) :
    t.Grows (s.eval t source fuel).2.2 ∧ t'.Grows (s'.eval t' source fuel).2.2 ∧
      Alike ρ (s.eval t source fuel).2.2 (s'.eval t' source fuel).2.2
        (s.eval t source fuel).2.1 (s'.eval t' source fuel).2.1 ∧
      (s'.eval t' source fuel).2.1.report (s'.eval t' source fuel).2.2
          (s'.eval t' source fuel).1 =
        (s.eval t source fuel).2.1.report (s.eval t source fuel).2.2 (s.eval t source fuel).1 := by
  obtain ⟨entry, w, w', hc, hc', hg, hg', hw⟩ := h.compile source
  cases entry with
  | none =>
    rw [eval_of_none hc, eval_of_none hc']
    exact ⟨hg, hg', hw, hw.report rfl⟩
  | some entry =>
    rw [eval_of_entry hc, eval_of_entry hc']
    refine ⟨hg, hg', hw.run entry fuel, (hw.run entry fuel).report ?_⟩
    exact (hw.run entry fuel).ending fun σ hσ => congrArg Prod.fst (hw.proceed entry fuel hσ)

end Session

/-- Which generation comes next does not decide whether a machine can be made, as long as there is
one. -/
theorem Machine.create_twice (settings : Settings) {gens gens' : Generations}
    (hg : gens.next = 0 ↔ gens'.next = 0) :
    (∃ e, create settings gens = .error e ∧ create settings gens' = .error e) ∨
      ∃ n g g' rest rest', n < wordLimit ∧
        create settings gens =
          .ok ({ heap := ⟨n, #[], 0, g⟩, limit := settings.exec.instructionLimit }, rest) ∧
        create settings gens' =
          .ok ({ heap := ⟨n, #[], 0, g'⟩, limit := settings.exec.instructionLimit }, rest') := by
  unfold create
  cases settings.defect? with
  | some d => exact .inl ⟨_, rfl, rfl⟩
  | none =>
    simp only [ArenaSettings.build, Arena.create]
    by_cases hn : settings.arena.blocks = 0 ∨ wordLimit ≤ settings.arena.blocks
    · simp only [if_pos hn]
      exact .inl ⟨_, rfl, rfl⟩
    · simp only [if_neg hn, Generations.issue?]
      by_cases hz : gens.next = 0
      · simp only [if_pos hz, if_pos (hg.mp hz)]
        exact .inl ⟨_, rfl, rfl⟩
      · simp only [if_neg hz, if_neg (mt hg.mpr hz)]
        have hlt : settings.arena.blocks < wordLimit := by omega
        exact .inr ⟨_, _, _, _, _, hlt, rfl, rfl⟩

namespace Session

variable {ρ : Nat → Nat} {t t' : SymbolTable}

/-- Host procedures are registered in machines that differ in ids and generations only. -/
theorem equip_alike (ps : List (String × Arity × HostProcedure)) {m m' : Machine}
    (h : ∀ σ, t.Translates t' σ → m' = (m.respelled σ).moved ρ) :
    t.Grows (equip m t ps).2 ∧ t'.Grows (equip m' t' ps).2 ∧
      (∀ σ, (equip m t ps).2.Translates (equip m' t' ps).2 σ →
        (equip m' t' ps).1 = ((equip m t ps).1.respelled σ).moved ρ) ∧
      (equip m t ps).1.heap = m.heap ∧
      ∀ p ∈ (equip m t ps).1.primitives, p ∈ m.primitives ∨ ∃ q ∈ ps, p.run = q.2.2 := by
  induction ps generalizing m m' t t' with
  | nil => exact ⟨.refl t, .refl t', h, rfl, fun p hp => .inl hp⟩
  | cons q ps ih =>
    obtain ⟨name, arity, run⟩ := q
    have hg := t.grows_intern name
    have hg' := t'.grows_intern name
    have hdefined : ∀ σ, (t.intern name).2.Translates (t'.intern name).2 σ →
        (m'.definePrimitive t' name arity run).2.1 =
          ((m.definePrimitive t name arity run).2.1.respelled σ).moved ρ := by
      intro σ hσ
      have hid : (t'.intern name).1 = σ (t.intern name).1 :=
        (hσ.find? name _ _ (t.find?_intern name) (t'.find?_intern name)).symm
      have hglobals : ∀ (id : SymbolId) (i : PrimitiveId),
          ((m.globals.respell σ).rename ρ).define (σ id) (.primitive i) =
            ((m.globals.define id (.primitive i)).respell σ).rename ρ := by
        intro id i
        rw [← Globals.define_respell hσ.injective, ← Globals.define_rename]
        rfl
      rw [h σ (hσ.anti hg hg')]
      simp only [Machine.definePrimitive, Machine.moved, Machine.respelled, hid, hglobals,
        Array.map_push, Array.size_map]
      rfl
    obtain ⟨hgrow, hgrow', hmachine, hheap, hprimitives⟩ := ih hdefined
    refine ⟨hg.trans hgrow, hg'.trans hgrow', hmachine, hheap, fun p hp => ?_⟩
    rcases hprimitives p hp with hp | ⟨q, hq, hrun⟩
    · rcases Array.mem_push.mp hp with hp | rfl
      · exact .inl hp
      · exact .inr ⟨_, List.mem_cons_self, rfl⟩
    · exact .inr ⟨q, List.mem_cons_of_mem _ hq, hrun⟩

/-- A session is started over both tables or over none. -/
theorem create_alike (settings : Settings) (t t' : SymbolTable) {gens gens' : Generations}
    (hg : gens.next = 0 ↔ gens'.next = 0) {u u' : SymbolTable}
    {r r' : Except MachineError (Session × Generations)}
    (hr : create settings Arithmetic.procedures t gens = (r, u))
    (hr' : create settings Arithmetic.procedures t' gens' = (r', u')) :
    t.Grows u ∧ t'.Grows u' ∧
      ((∃ e e', r = .error e ∧ r' = .error e') ∨
        ∃ s s' rest rest' ρ, r = .ok (s, rest) ∧ r' = .ok (s', rest') ∧ Alike ρ u u' s s') := by
  have hkeywords : ∀ t, SymbolTable.Grows t (Keywords.intern t).2 :=
    fun t => (t.spells_internAll (Keyword.all.map Keyword.spelling)).1
  rcases Machine.create_twice settings hg with
    ⟨e, hm, hm'⟩ | ⟨n, g, g', rest, rest', hn, hm, hm'⟩
  · simp only [create, hm] at hr
    simp only [create, hm'] at hr'
    cases hr
    cases hr'
    exact ⟨hkeywords t, hkeywords t', .inl ⟨e, e, rfl, rfl⟩⟩
  · simp only [create, hm] at hr
    simp only [create, hm'] at hr'
    cases hr
    cases hr'
    have hstart : ∀ σ, (Keywords.intern t).2.Translates (Keywords.intern t').2 σ →
        ({ heap := ⟨n, #[], 0, g'⟩, limit := settings.exec.instructionLimit } : Machine) =
          (Machine.respelled σ
            { heap := ⟨n, #[], 0, g⟩, limit := settings.exec.instructionLimit }).moved
              (Equiv.swap g g') := by
      intro σ _
      have hheap : Heap.moved (Equiv.swap g g') (Heap.respelled σ ⟨n, #[], 0, g⟩) =
          ⟨n, #[], 0, g'⟩ := by
        rw [Heap.moved_of_empty (by simp [Heap.respelled]), Heap.respelled_generation,
          Equiv.swap_apply_left]
        rfl
      simp only [Machine.moved, Machine.respelled, hheap, Array.map_empty]
      rfl
    obtain ⟨hgrow, hgrow', hmachine, hheap, hprimitives⟩ :=
      equip_alike Arithmetic.procedures hstart
    refine ⟨(hkeywords t).trans hgrow, (hkeywords t').trans hgrow',
      .inr ⟨_, _, _, _, Equiv.swap g g', rfl, rfl, ?_⟩⟩
    exact
      { injective := Equiv.injective _
        keywords := (Keywords.fits_intern t).mono hgrow
        keywords' := (Keywords.fits_intern t').mono hgrow'
        handleless := by simp [Code.Handleless]
        code := fun σ hσ => by simp [Code.respell]
        machine := hmachine
        capacity_lt := by rw [hheap]; exact hn
        arithmetic := fun p hp => (hprimitives p hp).resolve_left (by simp) }

end Session

/-! ## Sessions among others -/

namespace Commons

variable {who : Nat} {c c' : Commons}

/-- The session `who` is alike in both, and all sessions of the first are well formed, that is, like
themselves. -/
structure Alike (who : Nat) (c c' : Commons) : Prop where
  formed : ∀ i s, c.sessions i = some s → ∃ ρ, Session.Alike ρ c.symbols c.symbols s s
  same : Option.Rel (fun s s' => ∃ ρ, Session.Alike ρ c.symbols c'.symbols s s')
    (c.sessions who) (c'.sessions who)

theorem Alike.mono (h : Alike who c c') {t t' : SymbolTable} (hg : c.symbols.Grows t)
    (hg' : c'.symbols.Grows t') : Alike who ⟨t, c.sessions⟩ ⟨t', c'.sessions⟩ := by
  obtain ⟨hformed, hsame⟩ := h
  constructor
  · intro i s hs
    obtain ⟨ρ, hρ⟩ := hformed i s hs
    exact ⟨ρ, hρ.mono hg hg⟩
  · dsimp only
    generalize c.sessions who = o at hsame ⊢
    generalize c'.sessions who = o' at hsame ⊢
    cases hsame with
    | none => exact .none
    | some hs =>
      obtain ⟨ρ, hρ⟩ := hs
      exact .some ⟨ρ, hρ.mono hg hg'⟩

theorem Alike.formed_put (h : Alike who c c') {t : SymbolTable} (hg : c.symbols.Grows t) {i : Nat}
    {s : Session} (hs : ∃ ρ, Session.Alike ρ t t s s) (j : Nat) (r : Session)
    (hr : (c.put t i s).sessions j = some r) : ∃ ρ, Session.Alike ρ t t r r := by
  by_cases hj : j = i
  · subst hj
    rw [put_sessions_self] at hr
    cases hr
    exact hs
  · rw [put_sessions_of_ne c t hj] at hr
    exact (h.mono hg (.refl _)).formed j r hr

/-- Another session has been replaced. -/
theorem Alike.put_other (h : Alike who c c') {t : SymbolTable} (hg : c.symbols.Grows t) {i : Nat}
    (hi : i ≠ who) {s : Session} (hs : ∃ ρ, Session.Alike ρ t t s s) :
    Alike who (c.put t i s) c' := by
  refine ⟨h.formed_put hg hs, ?_⟩
  rw [put_sessions_of_ne c t hi.symm]
  exact (h.mono hg (.refl _)).same

/-- The session itself has been replaced in both. -/
theorem Alike.put_same (h : Alike who c c') {t t' : SymbolTable} (hg : c.symbols.Grows t)
    {s s' : Session} (hs : ∃ ρ, Session.Alike ρ t t s s)
    (hss : ∃ ρ, Session.Alike ρ t t' s s') :
    Alike who (c.put t who s) (c'.put t' who s') := by
  refine ⟨h.formed_put hg hs, ?_⟩
  rw [put_sessions_self, put_sessions_self]
  exact .some hss

/-! ### One act -/

theorem Alike.intern (h : Alike who c c') (name : String) :
    Alike who (c.act (.intern name)).2 c' :=
  h.mono (SymbolTable.grows_intern _ name) (.refl _)

theorem Alike.start_other (h : Alike who c c') {i : Nat} (hi : i ≠ who) (settings : Settings)
    (gens : Generations) : Alike who (c.act (.start i settings gens)).2 c' := by
  rcases hr : Session.create settings Arithmetic.procedures c.symbols gens with ⟨r, u⟩
  obtain ⟨hg, -, ⟨e, -, rfl, -⟩ | ⟨s, s', rest, rest', ρ, rfl, hsame, hs⟩⟩ :=
    Session.create_alike settings _ _ Iff.rfl hr hr
  · simp only [act, hr]
    exact h.mono hg (.refl _)
  · cases hsame
    simp only [act, hr]
    exact h.put_other hg hi ⟨ρ, hs⟩

theorem Alike.start_same (h : Alike who c c') (settings : Settings) {gens gens' : Generations}
    (hgens : gens.next = 0 ↔ gens'.next = 0) :
    Alike who (c.act (.start who settings gens)).2 (c'.act (.start who settings gens')).2 := by
  rcases hr : Session.create settings Arithmetic.procedures c.symbols gens with ⟨r, u⟩
  rcases hr' : Session.create settings Arithmetic.procedures c'.symbols gens' with ⟨r', u'⟩
  obtain ⟨hg, hg', ⟨e, e', rfl, rfl⟩ | ⟨s, s', rest, rest', ρ, rfl, rfl, hss⟩⟩ :=
    Session.create_alike settings _ _ hgens hr hr'
  · simp only [act, hr, hr']
    exact h.mono hg hg'
  · obtain ⟨-, -, ⟨e, -, hno, -⟩ | ⟨s₁, s₁', _, _, ρ₁, hs₁, hs₁', hs⟩⟩ :=
      Session.create_alike settings _ _ Iff.rfl hr hr
    · cases hno
    · cases hs₁
      cases hs₁'
      simp only [act, hr, hr']
      exact h.put_same hg ⟨ρ₁, hs⟩ ⟨ρ, hss⟩

theorem Alike.eval_other (h : Alike who c c') {i : Nat} (hi : i ≠ who) (source : String)
    (fuel : Nat) : Alike who (c.act (.eval i source fuel)).2 c' := by
  cases hs : c.sessions i with
  | none =>
    simp only [act, hs]
    exact h
  | some s =>
    obtain ⟨ρ, hρ⟩ := h.formed i s hs
    obtain ⟨hg, -, hnext, -⟩ := hρ.eval source fuel
    simp only [act, hs]
    exact h.put_other hg hi ⟨ρ, hnext⟩

theorem Alike.eval_same (h : Alike who c c') (source : String) (fuel : Nat) :
    (c'.act (.eval who source fuel)).1 = (c.act (.eval who source fuel)).1 ∧
      Alike who (c.act (.eval who source fuel)).2 (c'.act (.eval who source fuel)).2 := by
  have hsame := h.same
  cases hs : c.sessions who with
  | none =>
    rw [hs] at hsame
    cases hs' : c'.sessions who with
    | none =>
      simp only [act, hs, hs']
      exact ⟨trivial, h⟩
    | some s' =>
      rw [hs'] at hsame
      cases hsame
  | some s =>
    rw [hs] at hsame
    cases hs' : c'.sessions who with
    | none =>
      rw [hs'] at hsame
      cases hsame
    | some s' =>
      rw [hs'] at hsame
      cases hsame with
      | some hss =>
        obtain ⟨ρ, hss⟩ := hss
        obtain ⟨ρ₁, hself⟩ := h.formed who s hs
        obtain ⟨hg, hg', hnext, hreport⟩ := hss.eval source fuel
        obtain ⟨-, -, hnext₁, -⟩ := hself.eval source fuel
        simp only [act, hs, hs', hreport]
        exact ⟨trivial, h.put_same hg ⟨ρ₁, hnext₁⟩ ⟨ρ, hnext⟩⟩

theorem start_report (c : Commons) (i : Nat) (settings : Settings) (gens : Generations) :
    (c.act (.start i settings gens)).1 = none := by
  simp only [act]
  split <;> rfl

/-- An act of the session itself is done in both. -/
theorem Alike.act_same (h : Alike who c c') {a : Act} (ha : a.who? = some who)
    {gens : Generations} (hgens : gens.next ≠ 0)
    (hstart : ∀ settings g, a = .start who settings g → g.next ≠ 0) :
    (c'.act (a.counting gens)).1 = (c.act a).1 ∧
      Alike who (c.act a).2 (c'.act (a.counting gens)).2 := by
  cases a with
  | start i settings g =>
    cases ha
    have hg : g.next = 0 ↔ gens.next = 0 :=
      iff_of_false (hstart settings g rfl) hgens
    exact ⟨(start_report ..).trans (start_report ..).symm, h.start_same settings hg⟩
  | eval i source fuel =>
    cases ha
    exact h.eval_same source fuel
  | intern name => cases ha

/-- An act of someone else is done in the first only. -/
theorem Alike.act_other (h : Alike who c c') {a : Act} (ha : a.who? ≠ some who) :
    Alike who (c.act a).2 c' := by
  cases a with
  | start i settings gens => exact h.start_other (fun hi => ha (congrArg some hi)) settings gens
  | eval i source fuel => exact h.eval_other (fun hi => ha (congrArg some hi)) source fuel
  | intern name => exact h.intern name

theorem Alike.reports (h : Alike who c c') {gens : Generations} (hgens : gens.next ≠ 0)
    (acts : List Act) (hstart : ∀ settings g, .start who settings g ∈ acts → g.next ≠ 0) :
    reports who acts c = reports who (solo who gens acts) c' := by
  induction acts generalizing c c' with
  | nil => rfl
  | cons a acts ih =>
    have hrest : ∀ settings g, .start who settings g ∈ acts → g.next ≠ 0 :=
      fun settings g hmem => hstart settings g (List.mem_cons_of_mem _ hmem)
    by_cases ha : a.who? = some who
    · obtain ⟨hreport, hnext⟩ := h.act_same ha hgens fun settings g heq =>
        hstart settings g (heq ▸ List.mem_cons_self)
      have hwho : (a.counting gens).who? = some who := by
        cases a <;> exact ha
      have hsolo : solo who gens (a :: acts) = a.counting gens :: solo who gens acts := by
        rw [solo, List.filter_cons_of_pos (by simpa using ha), List.map_cons]
        rfl
      rw [hsolo, Commons.reports, Commons.reports, if_pos ha, if_pos hwho, hreport,
        ih hnext hrest]
    · have hsolo : solo who gens (a :: acts) = solo who gens acts := by
        rw [solo, List.filter_cons_of_neg (by simpa using ha)]
        rfl
      rw [hsolo, Commons.reports, if_neg ha, List.nil_append, ih (h.act_other ha) hrest]

end Commons

/-- What a session reports does not depend on the others with whom it shares a symbol table, nor on
what the table held before: it is what the session reports alone over an empty table, and with any
other state of the generation counter, as long as there are generations left to start with. -/
theorem shared_sessions_do_not_interfere (symbols : SymbolTable) (acts : List Act) (who : Nat)
    {gens : Generations} (hgens : gens.next ≠ 0)
    (hstart : ∀ settings g, .start who settings g ∈ acts → g.next ≠ 0) :
    Commons.reports who acts { symbols } = Commons.reports who (solo who gens acts) {} := by
  have hempty : Commons.Alike who { symbols } {} := by
    refine ⟨fun i s hs => ?_, .none⟩
    cases hs
  exact hempty.reports hgens acts hstart

/-- Two sessions that bind each other's names, and someone else who interns one. -/
def mingledActs : List Act :=
  [.start 0 { arena := .ofBlocks 64 } ⟨7⟩, .start 1 { arena := .ofBlocks 64 } ⟨8⟩,
    .eval 1 "(define x 'b)" 99, .intern "k", .eval 0 "(define f (lambda (x) 'a))" 99,
    .eval 1 "(f x)" 99, .eval 0 "(f 1)" 99, .eval 0 "(x 1)" 99, .eval 1 "x" 99]

/-- The first session has its reports alone, and they name what it defined only. -/
theorem shared_sessions_do_not_interfere_mingled :
    (∀ settings g, .start 0 settings g ∈ mingledActs → g.next ≠ 0) ∧
      Commons.reports 0 mingledActs { symbols := ⟨#["x", "+"]⟩ } =
        Commons.reports 0 (solo 0 ⟨3⟩ mingledActs) {} ∧
      (Commons.reports 0 mingledActs { symbols := ⟨#["x", "+"]⟩ }).map Report.ending =
        [.value "#<procedure @0>", .value "a", .failed "unbound variable: x"] := by
  have hstart : ∀ settings g, .start 0 settings g ∈ mingledActs → g.next ≠ 0 := by
    intro settings g hmem
    simp only [mingledActs, List.mem_cons, Act.start.injEq, List.not_mem_nil, reduceCtorEq,
      or_false, true_and, Nat.zero_ne_one, false_and] at hmem
    rw [hmem.2]
    decide
  exact ⟨hstart, shared_sessions_do_not_interfere _ mingledActs 0 (by decide) hstart,
    by decide +kernel⟩

end ClosureMachine
