import ClosureMachine.Proofs.Lowering.Declarations
import ClosureMachine.Proofs.Meaning.Runs
import ClosureMachine.Proofs.Session.Opening

/-!
Lowering preserves meaning. A session and a world go side by side through any number of
evaluations: whatever the session answers is what the program comes to in the world, unless there is
no room for a record; and when the program comes to an end, the session answers
(`lowering_preserves_meaning`). Closures and continuations that one evaluation leaves in a global
are there for the next, until a reset.
-/

namespace ClosureMachine

/-- The expressions of a source text, if it is a program. -/
def Expr.ofSource? (source : String) : Option (List Expr) :=
  (Form.readAll? source).bind Expr.ofForms?

/-- The names that have a definition somewhere in a source text. -/
def Form.definedIn (source : String) : List String :=
  ((Form.readAll? source).map Form.definitionsAll).getD []

namespace Session

/-- The sessions that come about by evaluations without a limit, each with the symbol table as the
session left it. Others may use the table in between. A text may be refused, as long as it leaves
the code valid. A reset begins a new epoch. -/
inductive Reached : Session → SymbolTable → Prop
  | create {settings : Settings} {symbols symbols' : SymbolTable} {gens gens' : Generations}
    {s : Session} : settings.exec.instructionLimit = none →
    Session.create settings Arithmetic.procedures symbols gens = (.ok (s, gens'), symbols') →
    Reached s symbols'
  | eval {s s' : Session} {symbols symbols' symbols'' : SymbolTable} {source : String}
    {es : List Expr} {fuel : Nat} {answer : Except SessionError Value} : Reached s symbols →
    symbols.Grows symbols' → Expr.ofSource? source = some es → Expr.areProper es = true →
    s.eval symbols' source fuel = (some answer, s', symbols'') → s'.code.size < wordLimit →
    Reached s' symbols''
  | refused {s s' : Session} {symbols symbols' symbols'' : SymbolTable} {source : String}
    {fuel : Nat} {answer : Except SessionError Value} : Reached s symbols →
    symbols.Grows symbols' → Expr.ofSource? source = none →
    s.eval symbols' source fuel = (some answer, s', symbols'') → s'.code.size < wordLimit →
    s'.code.defect? = none → Reached s' symbols''
  | reset {s : Session} {symbols : SymbolTable} {m : Machine} {gens gens' : Generations} :
    Reached s symbols → s.machine.reset gens = .ok (m, gens') →
    Reached { s with machine := m } symbols

/-- A session together with the world that its evaluations lead to. A refused text may have declared
some of the names that it defines, and a reset gives up all frames. -/
inductive Accompanied : Session → SymbolTable → World → Prop
  | create {settings : Settings} {symbols symbols' : SymbolTable} {gens gens' : Generations}
    {s : Session} : settings.exec.instructionLimit = none →
    Session.create settings Arithmetic.procedures symbols gens = (.ok (s, gens'), symbols') →
    Accompanied s symbols' .initial
  | eval {s s' : Session} {symbols symbols' symbols'' : SymbolTable} {source : String}
    {es : List Expr} {fuel : Nat} {r : Except MachineError Value} {w : World} {c : Config} :
    Accompanied s symbols w → symbols.Grows symbols' → Expr.ofSource? source = some es →
    s.eval symbols' source fuel = (some (r.mapError .failed), s', symbols'') →
    (w.start es).Reaches c → c.Explains symbols'' r s'.machine.heap →
    Accompanied s' symbols'' c.world
  | refused {s s' : Session} {symbols symbols' symbols'' : SymbolTable} {source : String}
    {fuel : Nat} {w : World} {names : List String} : Accompanied s symbols w →
    symbols.Grows symbols' → Expr.ofSource? source = none →
    s.eval symbols' source fuel = (some (.error .badSource), s', symbols'') →
    names ⊆ Form.definedIn source →
    (s.workspace symbols').Declares names (s'.workspace symbols'') →
    Accompanied s' symbols'' (w.declare names)
  | reset {s : Session} {symbols : SymbolTable} {m : Machine} {gens gens' : Generations}
    {w : World} : Accompanied s symbols w → s.machine.reset gens = .ok (m, gens') →
    Accompanied { s with machine := m } symbols w.forget

/-- What a program comes to in the world is what the session makes of it: an answer has its
explanation in the world, and there is an answer if the program comes to an end. -/
structure Agrees (s : Session) (symbols : SymbolTable) (source : String) (es : List Expr)
    (w : World) : Prop where
  explained : ∀ fuel answer s' symbols',
    s.eval symbols source fuel = (some answer, s', symbols') →
    ∃ c r, (w.start es).Reaches c ∧ answer = r.mapError .failed ∧
      c.Explains symbols' r s'.machine.heap
  answered : ∀ c o, (w.start es).Reaches c → c.step = .stop o →
    ∃ fuel answer, (s.eval symbols source fuel).1 = some answer

theorem Reached.of_eval {s : Session} {symbols : SymbolTable} (h : s.Reached symbols)
    {source : String} (hp : (Expr.ofSource? source).map Expr.areProper = some true) {fuel : Nat}
    (ha : (s.eval symbols source fuel).1.isSome)
    (hw : (s.eval symbols source fuel).2.1.code.size < wordLimit) :
    (s.eval symbols source fuel).2.1.Reached (s.eval symbols source fuel).2.2 := by
  obtain ⟨es, hes, hp⟩ := Option.map_eq_some_iff.mp hp
  obtain ⟨answer, ha⟩ := Option.isSome_iff_exists.mp ha
  exact .eval h (.refl _) hes hp (Prod.ext ha rfl) hw

/-! ## The invariant -/

/-- The session stands for the world. -/
structure Represents (s : Session) (symbols : SymbolTable) (w : World) : Prop where
  ready : (s.workspace symbols).Ready
  valid : s.code.Valid
  mirrors : ∃ d : Layout, d.symbols = symbols ∧ d.code = s.code ∧ d.Mirrors w s.machine

theorem Represents.symbols {s : Session} {symbols symbols' : SymbolTable} {w : World}
    (h : s.Represents symbols w) (hg : symbols.Grows symbols') : s.Represents symbols' w := by
  obtain ⟨d, rfl, hcode, hm⟩ := h.mirrors
  exact ⟨⟨h.ready.keywords.mono hg, h.ready.formals⟩, h.valid,
    { d with symbols := symbols', code := d.code }, rfl, hcode, hm.mono hg (.refl _)⟩

private theorem initial_globals {name : String} {v : Content}
    (h : World.initial.globals name = some v) :
    ∃ i : Fin Arithmetic.procedures.length, v = .procedure i ∧
      (Arithmetic.procedures.get i).1 = name := by
  simp only [World.initial, Option.map_eq_some_iff, List.findFinIdx?_eq_some_iff] at h
  obtain ⟨i, ⟨hi, -⟩, rfl⟩ := h
  exact ⟨i, rfl, by simpa using hi⟩

private theorem initial_bound (i : Fin Arithmetic.procedures.length) :
    ∃ v, World.initial.globals (Arithmetic.procedures.get i).1 = some v := by
  cases h : World.initial.globals (Arithmetic.procedures.get i).1 with
  | some v => exact ⟨v, rfl⟩
  | none =>
    simp only [World.initial, Option.map_eq_none_iff, List.findFinIdx?_eq_none_iff] at h
    have := h _ (List.get_mem _ i)
    simp at this

theorem represents_create {settings : Settings} {symbols symbols' : SymbolTable}
    {gens gens' : Generations} {s : Session} (hl : settings.exec.instructionLimit = none)
    (h : Session.create settings Arithmetic.procedures symbols gens = (.ok (s, gens'), symbols')) :
    s.Represents symbols' .initial := by
  obtain ⟨heap, t, hw, he, hcode, hkeywords, heq⟩ := create_spec (by decide) (by decide) h
  have hsame := heq.same
  refine ⟨⟨hkeywords, by rw [workspace, hcode]; exact Nat.le_refl _⟩, ?_,
    ⟨symbols', s.code, heap, []⟩, rfl, rfl, ?_⟩
  · intro id n hn
    rw [hcode] at hn
    exact absurd (Code.node?_lt hn) (Nat.not_lt_zero _)
  · constructor
    case heap => rw [hsame]
    case linked => exact .of_unused he hw
    case limit => rw [hsame, ← hl]
    case procedures =>
      rw [heq.procedures]
      rfl
    case places => rfl
    case distinct =>
      intro n n' r hr
      simp at hr
    case frames =>
      intro n b r hb hr
      simp at hr
    case globals =>
      intro name v hv
      obtain ⟨i, rfl, rfl⟩ := initial_globals hv
      obtain ⟨id, hid, hget⟩ := heq.bound i _ (List.getElem?_eq_getElem i.isLt)
      refine ⟨id, _, hid, hget, ?_⟩
      change Layout.Holds _ _ (.primitive (0 + i.val))
      rw [Nat.zero_add]
      exact .procedure
    case bound =>
      intro id u hu
      rcases heq.fresh id u (Globals.mem_of_get? hu) with hold | ⟨i, p, hp, hid, -⟩
      · cases hold
      · obtain ⟨hi, rfl⟩ := List.getElem?_eq_some_iff.mp hp
        obtain ⟨v, hv⟩ := initial_bound ⟨i, hi⟩
        exact ⟨_, v, hid, hv⟩
    case unique => exact heq.distinct .nil

section

variable {s s' : Session} {symbols symbols' : SymbolTable} {source : String} {w : World}

/-- Lowering declares names, and apart from that the session stands for the same world. -/
theorem Represents.declare (h : s.Represents symbols w) {w' : Workspace}
    (hx : (s.workspace symbols).Extends w') (hv : w'.code.Valid) {names : List String}
    (hd : (s.workspace symbols).Declares names w') :
    (s.updated w').Represents w'.symbols (w.declare names) := by
  obtain ⟨d, rfl, hcode, hm⟩ := h.mirrors
  have hready := h.ready.mono hx
  refine ⟨⟨hx.keywords ▸ hready.keywords, hready.formals⟩, hv,
    { d with symbols := w'.symbols, code := w'.code }, rfl, rfl, ?_⟩
  exact (hm.mono hx.symbols (hcode ▸ hx.code)).declare hd.all hx.bound hd.fresh
    (hx.distinct hm.unique)

/-- A proper program is lowered, and what it defines is declared. -/
theorem Represents.compile_program (h : s.Represents symbols w) {es : List Expr}
    (hes : Expr.ofSource? source = some es) (hp : Expr.areProper es = true)
    (hw : (s.compile symbols source).2.1.code.size < wordLimit) :
    ∃ entry s' symbols', s.compile symbols source = (some entry, s', symbols') ∧
      Lowering.Implements symbols' s'.code es entry ∧
      s'.Represents symbols' (w.declare (Expr.definedAll es)) := by
  obtain ⟨entry, w', hc, hx, hspec⟩ := compile_spec h.ready source
  obtain ⟨forms, hforms, hes⟩ := Option.bind_eq_some_iff.mp hes
  rw [hc] at hw
  rw [hforms] at hspec
  obtain ⟨start, rfl⟩ := (hspec hw).complete es hes hp h.valid
  obtain ⟨es', hes', himp, hd, hv⟩ := (hspec hw).sound start rfl
  cases hes.symm.trans hes'
  exact ⟨start, s.updated w', w'.symbols, hc, himp, h.declare hx hv hd⟩

/-- Whether a text is lowered or refused, what it declares it defines. -/
theorem compile_declares (h : (s.workspace symbols).Ready) (source : String) :
    ∃ names ⊆ Form.definedIn source, (s.workspace symbols).Declares names
      ((s.compile symbols source).2.1.workspace (s.compile symbols source).2.2) := by
  cases hf : Form.readAll? source with
  | none =>
    refine ⟨[], List.nil_subset _, ?_⟩
    simp only [compile, hf]
    exact Workspace.declares_of_same rfl
  | some forms =>
    obtain ⟨entry, w', hrun, -, names, hsub, hd⟩ := Lowering.run_program_confined forms _ h
    refine ⟨names, by simpa [Form.definedIn, hf] using hsub, ?_⟩
    have hcompile : s.compile symbols source = (entry, s.updated w', w'.symbols) := by
      simp only [compile, hf]
      exact congrArg (fun r => (r.1, s.updated r.2, r.2.symbols)) hrun
    rw [hcompile]
    exact ⟨hd.all, hd.fresh⟩

/-- A text that is no program is refused. -/
theorem Represents.compile_refused (h : s.Represents symbols w)
    (hes : Expr.ofSource? source = none)
    (hw : (s.compile symbols source).2.1.code.size < wordLimit)
    (hv : (s.compile symbols source).2.1.code.defect? = none) :
    ∃ s' symbols' names, s.compile symbols source = (none, s', symbols') ∧
      names ⊆ Form.definedIn source ∧
      (s.workspace symbols).Declares names (s'.workspace symbols') ∧
      s'.Represents symbols' (w.declare names) := by
  obtain ⟨entry, w', hc, hx, hspec⟩ := compile_spec h.ready source
  obtain ⟨names, hsub, hd⟩ := compile_declares h.ready source
  rw [hc] at hw hv hd
  have hnone : entry = none := by
    cases hforms : Form.readAll? source with
    | none =>
      rw [hforms] at hspec
      exact hspec
    | some forms =>
      rw [hforms] at hspec
      cases hentry : entry with
      | none => rfl
      | some start =>
        obtain ⟨es, hes', -⟩ := (hspec hw).sound start hentry
        rw [Expr.ofSource?, hforms, Option.bind_some, hes'] at hes
        cases hes
  subst hnone
  exact ⟨_, _, names, hc, hsub, hd,
    h.declare hx ((Code.defect?_eq_none_iff _).mp hv) ⟨hd.all, hd.fresh⟩⟩

/-- At the entry of a program the machine is at its beginning. -/
theorem Represents.tracks (h : s.Represents symbols w) {es : List Expr} {entry : NodeId}
    (himp : Lowering.Implements symbols s.code es entry) (hp : Expr.areProper es = true) :
    ∃ d : Layout, d.symbols = symbols ∧ d.code = s.code ∧
      d.Tracks ⟨.enter [] .done es, w⟩ (s.machine.start entry) := by
  obtain ⟨d, rfl, hcode, hm⟩ := h.mirrors
  rw [← hcode] at himp
  obtain ⟨halt, hhalt, hes⟩ := himp
  refine ⟨d, rfl, hcode, hm.congr rfl rfl rfl rfl, ⟨?_, Nat.zero_le _, nofun⟩, nofun, ?_⟩
  · exact hm.heap ▸ hm.linked
  · cases es with
    | nil =>
      cases hes
      exact ⟨.datum trivial, .done hhalt⟩
    | cons e es =>
      exact Layout.faces_enter .nil ⟨hes, List.cons_ne_nil _ _, hp⟩ (.done hhalt)

theorem answers_of_run {entry : NodeId} {fuel : Nat} {r : Except MachineError Value}
    (h : s.run entry (fun _ => false) fuel = (some r, s')) :
    ∃ m, s' = { s with machine := m } ∧ (s.machine.start entry).Answers s.code fuel r m := by
  unfold run Machine.runUntil at h
  rcases hm : Machine.proceed s.code (fun _ => false) fuel (s.machine.start entry) with ⟨r', m'⟩
  simp only [hm] at h
  cases h
  exact ⟨m', rfl, hm⟩

/-- A run from the entry of a program ends as the program does, and the session then stands for the
world as the program left it. -/
theorem Represents.run (h : s.Represents symbols w) {es : List Expr} {entry : NodeId}
    (himp : Lowering.Implements symbols s.code es entry) (hp : Expr.areProper es = true)
    {fuel : Nat} {r : Except MachineError Value}
    (hr : s.run entry (fun _ => false) fuel = (some r, s')) :
    ∃ c, (Config.mk (.enter [] .done es) w).Reaches c ∧ c.Explains symbols r s'.machine.heap ∧
      s'.Represents symbols c.world := by
  obtain ⟨m, rfl, ha⟩ := answers_of_run hr
  obtain ⟨d, rfl, hcode, ht⟩ := h.tracks himp hp
  rw [← hcode] at ha
  obtain ⟨c, d', hreach, hd, hm, he⟩ := ht.explains ha
  exact ⟨c, hreach, he, ⟨h.ready.keywords, h.ready.formals⟩, h.valid, d', hd.1,
    hd.2.trans hcode, hm⟩

/-- How an evaluation of a program goes on from its compilation. -/
theorem Represents.eval (h : s.Represents symbols w) {es : List Expr}
    (hes : Expr.ofSource? source = some es) (hp : Expr.areProper es = true) {fuel : Nat}
    {answer : Except SessionError Value}
    (ha : s.eval symbols source fuel = (some answer, s', symbols'))
    (hw : (s.compile symbols source).2.1.code.size < wordLimit) :
    ∃ c r, (w.start es).Reaches c ∧ answer = r.mapError .failed ∧
      c.Explains symbols' r s'.machine.heap ∧ s'.Represents symbols' c.world := by
  obtain ⟨entry, s₁, symbols₁, hc, himp, hrep⟩ := h.compile_program hes hp hw
  rw [eval_of_entry hc] at ha
  rcases hrun : s₁.run entry (fun _ => false) fuel with ⟨result, s₂⟩
  rw [hrun] at ha
  cases result with
  | none => cases ha
  | some r =>
    cases ha
    obtain ⟨c, hreach, he, hrep'⟩ := hrep.run himp hp hrun
    exact ⟨c, r, hreach, rfl, he, hrep'⟩

/-- Evaluation leaves the code as compilation made it. -/
theorem code_eval (s : Session) (symbols : SymbolTable) (source : String) (fuel : Nat) :
    (s.eval symbols source fuel).2.1.code = (s.compile symbols source).2.1.code := by
  rcases hc : s.compile symbols source with ⟨_ | entry, s₁, symbols₁⟩
  · rw [eval_of_none hc]
  · rw [eval_of_entry hc]
    rfl

/-- After a reset the session stands for the world without its frames. -/
theorem Represents.reset (h : s.Represents symbols w) {m : Machine} {gens gens' : Generations}
    (hm : s.machine.reset gens = .ok (m, gens')) :
    Represents { s with machine := m } symbols w.forget := by
  obtain ⟨heap, hcap, he, heq⟩ := Machine.reset_eq_ok hm
  obtain ⟨d, rfl, hcode, hmirrors⟩ := h.mirrors
  have hw : heap.capacity < wordLimit := by
    rw [hcap, hmirrors.heap]
    exact hmirrors.linked.capacity_lt
  have hlinked : m.heap.Linked 0 := by
    rw [heq]
    exact .of_unused he hw
  refine ⟨⟨h.ready.keywords, h.ready.formals⟩, h.valid, { d with heap := m.heap, places := [] },
    rfl, hcode, hmirrors.forget hlinked ?_ ?_ ?_⟩
  all_goals rw [heq]

/-- Whatever has come about, there is a world for it. -/
theorem Reached.accompanied (h : s.Reached symbols) :
    ∃ w, s.Accompanied symbols w ∧ s.Represents symbols w := by
  induction h with
  | create hl hs => exact ⟨.initial, .create hl hs, represents_create hl hs⟩
  | @eval s s' symbols symbols' symbols'' source es fuel answer _ hg hes hp ha hw ih =>
    obtain ⟨w, hacc, hrep⟩ := ih
    have hcode := s.code_eval symbols' source fuel
    rw [ha] at hcode
    obtain ⟨c, r, hreach, rfl, he, hrep'⟩ := (hrep.symbols hg).eval hes hp ha (hcode ▸ hw)
    exact ⟨c.world, .eval hacc hg hes ha hreach he, hrep'⟩
  | @refused s s' symbols symbols' symbols'' source fuel answer _ hg hes ha hw hv ih =>
    obtain ⟨w, hacc, hrep⟩ := ih
    have hcode := s.code_eval symbols' source fuel
    rw [ha] at hcode
    obtain ⟨s₁, symbols₁, names, hc, hsub, hd, hrep'⟩ :=
      (hrep.symbols hg).compile_refused hes (hcode ▸ hw) (hcode ▸ hv)
    rw [eval_of_none hc] at ha
    cases ha
    exact ⟨w.declare names, .refused hacc hg hes (eval_of_none hc fuel) hsub hd, hrep'⟩
  | reset _ hm ih =>
    obtain ⟨w, hacc, hrep⟩ := ih
    exact ⟨w.forget, .reset hacc hm, hrep.reset hm⟩

/-- A session that stands for a world agrees with it on every program. -/
theorem Represents.agrees (h : s.Represents symbols w) {es : List Expr}
    (hes : Expr.ofSource? source = some es) (hp : Expr.areProper es = true)
    (hw : (s.compile symbols source).2.1.code.size < wordLimit) :
    s.Agrees symbols source es w := by
  constructor
  case explained =>
    intro fuel answer s' symbols' ha
    obtain ⟨c, r, hreach, hr, he, -⟩ := h.eval hes hp ha hw
    exact ⟨c, r, hreach, hr, he⟩
  case answered =>
    intro c o hreach ho
    obtain ⟨entry, s₁, symbols₁, hc, himp, hrep⟩ := h.compile_program hes hp hw
    obtain ⟨d, -, hcode, ht⟩ := hrep.tracks himp hp
    obtain ⟨fuel, r, m', ha⟩ := ht.answers hreach ho
    refine ⟨fuel, r.mapError .failed, ?_⟩
    rw [eval_of_entry hc]
    rw [hcode] at ha
    have hrun : (s₁.run entry (fun _ => false) fuel).1 = some r := congrArg Prod.fst ha
    rw [hrun]
    rfl

end

end Session

/-- Every session that evaluations lead to has gone side by side with a world, and it agrees with
that world on every program that may come next. -/
theorem lowering_preserves_meaning {s : Session} {symbols : SymbolTable}
    (h : s.Reached symbols) :
    ∃ w, s.Accompanied symbols w ∧ ∀ symbols' source es, symbols.Grows symbols' →
      Expr.ofSource? source = some es → Expr.areProper es = true →
      (s.compile symbols' source).2.1.code.size < wordLimit →
      s.Agrees symbols' source es w := by
  obtain ⟨w, hacc, hrep⟩ := h.accompanied
  exact ⟨w, hacc, fun symbols' source es hg hes hp hw => (hrep.symbols hg).agrees hes hp hw⟩

theorem smallSession_reached : smallSession.1.Reached smallSession.2 := by
  obtain ⟨gens, h⟩ := smallSession_created
  exact .create rfl h

theorem keptSession_reached : keptSession.1.Reached keptSession.2 := by
  unfold keptSession
  exact smallSession_reached.of_eval (by decide +kernel) (by decide +kernel) (by decide +kernel)

/-- A continuation that an earlier program has kept is entered again. -/
theorem lowering_preserves_meaning_kept :
    (keptSession.1.eval keptSession.2 "(k 10)" 100).1.bind Except.toOption = some (.int 11) ∧
      ∃ w es, keptSession.1.Accompanied keptSession.2 w ∧ Expr.ofSource? "(k 10)" = some es ∧
        keptSession.1.Agrees keptSession.2 "(k 10)" es w := by
  obtain ⟨w, hacc, hagrees⟩ := lowering_preserves_meaning keptSession_reached
  have hsource : (Expr.ofSource? "(k 10)").map Expr.areProper = some true := by decide +kernel
  obtain ⟨es, hes, hp⟩ := Option.map_eq_some_iff.mp hsource
  exact ⟨by decide +kernel, w, es, hacc, hes,
    hagrees keptSession.2 "(k 10)" es (.refl _) hes hp (by decide +kernel)⟩

end ClosureMachine
