import ClosureMachine.Proofs.Machine.Rooted
import ClosureMachine.Proofs.Meaning.Mirror

/-!
The machine follows the meaning. A machine tracks a configuration if it mirrors its world and its
registers are at the configuration's focus. `Tracks.simulates` says what happens then when the
configuration takes a step: after some steps, perhaps none, the machine tracks the next
configuration, or it ends as the configuration does, or it is out of memory and still mirrors the
world. When the machine takes no step, the rank of the configuration falls.
-/

namespace ClosureMachine

/-! ## Outcomes -/

/-- How a content looks from outside. -/
def Content.Shows (t : SymbolTable) : Content → Value → Prop
  | .datum d, v => d.Encodes t v
  | .closure .., .closure _ => True
  | .continuation _, .continuation _ => True
  | .procedure i, .primitive j => i = j
  | _, _ => False

def Fault.Shows (t : SymbolTable) : Fault → MachineError → Prop
  | .unbound name, .unboundVariable id => t.find? name = some id
  | .notCallable v, .notCallable u => v.Shows t u
  | .arity callee expected actual, .arityMismatch callee' expected' actual' =>
    callee.Shows t callee' ∧ expected = expected' ∧ actual = actual'
  | .failed e, e' => e = e'
  | _, _ => False

def Outcome.Shows (t : SymbolTable) : Outcome → Except MachineError Value → Prop
  | .value v, .ok u => v.Shows t u
  | .fault f, .error e => f.Shows t e
  | _, _ => False

theorem Layout.Holds.shows {d : Layout} {v : Content} {u : Value} (h : d.Holds v u) :
    v.Shows d.symbols u := by
  cases h with
  | datum hc => exact hc
  | closure => trivial
  | continuation => trivial
  | procedure => rfl

/-! ## Runs of the machine -/

namespace Machine

/-- The machine takes `n` steps and goes on. -/
inductive Steps (code : Code) : Nat → Machine → Machine → Prop
  | refl {m : Machine} : Steps code 0 m m
  | head {n : Nat} {m m' m'' : Machine} : m.step code = (.ok .running, m') →
    Steps code n m' m'' → Steps code (n + 1) m m''

theorem Steps.single {code : Code} {m m' : Machine} (h : m.step code = (.ok .running, m')) :
    Steps code 1 m m' := .head h .refl

theorem Steps.trans {code : Code} {n n' : Nat} {m m' m'' : Machine} (h : Steps code n m m')
    (h' : Steps code n' m' m'') : Steps code (n + n') m m'' := by
  induction h with
  | refl => rwa [Nat.zero_add]
  | head hs _ ih =>
    rw [Nat.add_right_comm]
    exact .head hs (ih h')

theorem step_of_node {m : Machine} {code : Code} {n : Node} (hl : m.limit = none)
    (hn : code.node? m.regs.x = some n) : m.step code = m.tick.execute code n :=
  step_eq_execute (by rw [exhaustedLimit?, hl]; rfl) hn

end Machine

/-! ## The rank -/

/-- What is left to unfold before a context needs the machine. -/
noncomputable def Context.rank : Context → Nat
  | .sequence rest _ k => 1 + sizeOf rest + k.rank
  | _ => 0

noncomputable def Config.rank (c : Config) : Nat :=
  match c.focus with
  | .eval e _ k => sizeOf e + k.rank
  | .deliver _ k => k.rank

theorem rank_enter (scope : Scope) (k : Context) (es : List Expr) (w : World) :
    (Config.mk (.enter scope k es) w).rank < 1 + sizeOf es + k.rank := by
  match es with
  | [] => simp [Focus.enter, Config.rank]
  | [e] =>
    simp only [Focus.enter, Config.rank, List.cons.sizeOf_spec]
    omega
  | e :: e' :: es =>
    simp only [Focus.enter, Config.rank, Context.rank, List.cons.sizeOf_spec]
    omega

theorem rank_collect (collected : List Content) (operator : Expr) (scope : Scope) (k : Context)
    (args : List Expr) (w : World) :
    (Config.mk (.collect collected operator scope k args) w).rank <
      1 + sizeOf operator + sizeOf args := by
  cases args with
  | nil =>
    simp only [Focus.collect, Config.rank, Context.rank]
    omega
  | cons e rest =>
    simp only [Focus.collect, Config.rank, Context.rank, List.cons.sizeOf_spec]
    omega

namespace Layout

/-! ## Tracking -/

/-- The registers are where the focus is. -/
def Faces (d : Layout) : Focus → Registers → Prop
  | .eval e scope k, regs => d.Spans scope regs.e ∧
    ∃ next, d.Carries e next regs.x ∧ d.Awaits k next regs.e regs.r regs.s
  | .deliver v k, regs => d.Holds v regs.a ∧ d.Awaits k regs.x regs.e regs.r regs.s

structure Tracks (d : Layout) (c : Config) (m : Machine) : Prop where
  mirrors : d.Mirrors c.world m
  rooted : m.Rooted 0
  held : m.Held 0
  faces : d.Faces c.focus m.regs

/-- Layouts for the same code. -/
def Alike (d d' : Layout) : Prop := d'.symbols = d.symbols ∧ d'.code = d.code

theorem Alike.refl (d : Layout) : d.Alike d := ⟨rfl, rfl⟩

theorem Alike.trans {d d' d'' : Layout} (h : d.Alike d') (h' : d'.Alike d'') : d.Alike d'' :=
  ⟨h'.1.trans h.1, h'.2.trans h.2⟩

/-- After some steps the machine tracks the next configuration. -/
def Arrives (d : Layout) (c : Config) (m : Machine) (c' : Config) : Prop :=
  ∃ n m' d', m.Steps d.code n m' ∧ d.Alike d' ∧ d'.Tracks c' m' ∧ (0 < n ∨ c'.rank < c.rank)

/-- After some steps there is no room for a record, and the world is as it was. -/
def Exhausts (d : Layout) (c : Config) (m : Machine) : Prop :=
  ∃ n m₁ m₂ cause d', m.Steps d.code n m₁ ∧
    m₁.step d.code = (.error (.outOfMemory cause), m₂) ∧ m₂.heap.Lacks cause ∧ d.Alike d' ∧
    d'.Mirrors c.world m₂

/-- After some steps the machine ends with the same outcome, and the world is as it was. -/
def Finishes (d : Layout) (c : Config) (m : Machine) (o : Outcome) : Prop :=
  ∃ n m₁ m₂ r d', m.Steps d.code n m₁ ∧ m₁.step d.code = (r.map .halted, m₂) ∧
    o.Shows d.symbols r ∧ d.Alike d' ∧ d'.Mirrors c.world m₂

/-- What the machine makes of a step of the configuration. -/
def Simulates (d : Layout) (c : Config) (m : Machine) : Transition → Prop
  | .next c' => d.Arrives c m c' ∨ d.Exhausts c m
  | .stop o => d.Finishes c m o

section

variable {d : Layout} {c : Config} {m : Machine}

theorem Tracks.step_eq (h : d.Tracks c m) {n : Node} (hn : d.code.node? m.regs.x = some n) :
    m.step d.code = m.tick.execute d.code n :=
  Machine.step_of_node h.mirrors.limit hn

/-- Only registers change, and neither environment nor stack. -/
theorem Tracks.refocus (h : d.Tracks c m) {m' : Machine} {f : Focus} (hh : m'.heap = m.heap)
    (hg : m'.globals = m.globals) (hp : m'.primitives = m.primitives) (hl : m'.limit = m.limit)
    (he : m'.regs.e = m.regs.e) (hs : m'.regs.s = m.regs.s) (hf : d.Faces f m'.regs) :
    d.Tracks ⟨f, c.world⟩ m' where
  mirrors := h.mirrors.congr hh hg hp hl
  rooted := h.rooted.congr hh he
  held := h.held.congr hh hs
  faces := hf

/-- A record is stored at the end of the heap. -/
theorem Tracks.store (h : d.Tracks c m) {m' : Machine} {f : Focus} (ha : m'.Advanced 0 m.heap)
    {cells : List Cell} (hh : m'.heap = m.heap.extend cells) (hg : m'.globals = m.globals)
    (hp : m'.primitives = m.primitives) (hl : m'.limit = m.limit)
    (hf : ({ d with heap := m'.heap } : Layout).Faces f m'.regs) :
    ({ d with heap := m'.heap } : Layout).Tracks ⟨f, c.world⟩ m' where
  mirrors := h.mirrors.extend ha.rooted.linked hh hg hp hl
  rooted := ha.rooted
  held := ha.held
  faces := hf

theorem Tracks.tick (h : d.Tracks c m) : d.Tracks c m.tick :=
  h.refocus rfl rfl rfl rfl rfl rfl h.faces

/-- The machine is there without a step. -/
theorem Tracks.arrives_now {c' : Config} (h : d.Tracks c' m) (hr : c'.rank < c.rank) :
    d.Arrives c m c' := ⟨0, m, d, .refl, .refl d, h, .inr hr⟩

theorem arrives_next {d' : Layout} {c' : Config} {m' : Machine}
    (hs : m.step d.code = (.ok .running, m')) (h : d'.Tracks c' m') (hd : d.Alike d') :
    d.Arrives c m c' := ⟨1, m', d', .single hs, hd, h, .inl Nat.one_pos⟩

theorem exhausts_now {m' : Machine} {cause : ArenaError}
    (hs : m.step d.code = (.error (.outOfMemory cause), m')) (hl : m'.heap.Lacks cause)
    (h : d.Mirrors c.world m') : d.Exhausts c m :=
  ⟨0, m, m', cause, d, .refl, hs, hl, .refl d, h⟩

theorem finishes_now {m' : Machine} {o : Outcome} {r : Except MachineError Value}
    (hs : m.step d.code = (r.map .halted, m')) (ho : o.Shows d.symbols r)
    (h : d.Mirrors c.world m') : d.Finishes c m o :=
  ⟨0, m, m', r, d, .refl, hs, ho, .refl d, h⟩

/-- Steps in front. -/
theorem Simulates.prepend {n : Nat} {m' : Machine} {d₁ : Layout} {c₁ : Config} {t : Transition}
    (h : d₁.Simulates c₁ m' t) (hs : m.Steps d.code n m') (hd : d.Alike d₁)
    (hw : c₁.world = c.world) (hr : 0 < n ∨ c₁.rank ≤ c.rank) : d.Simulates c m t := by
  cases t with
  | next c' =>
    rcases h with ⟨n', m₁, d', hs', hd', ht, hr'⟩ | ⟨n', m₁, m₂, cause, d', hs', he, hl, hd', hm⟩
    · rw [hd.2] at hs'
      exact .inl ⟨n + n', m₁, d', hs.trans hs', hd.trans hd', ht, by omega⟩
    · rw [hd.2] at hs' he
      exact .inr ⟨n + n', m₁, m₂, cause, d', hs.trans hs', he, hl, hd.trans hd', hw ▸ hm⟩
  | stop o =>
    obtain ⟨n', m₁, m₂, r, d', hs', he, ho, hd', hm⟩ := h
    rw [hd.2] at hs' he
    rw [hd.1] at ho
    exact ⟨n + n', m₁, m₂, r, d', hs.trans hs', he, ho, hd.trans hd', hw ▸ hm⟩

/-! ## Focus -/

theorem faces_enter {scope : Scope} {k : Context} {es : List Expr} {next : NodeId}
    {regs : Registers} (hs : d.Spans scope regs.e) (hc : d.CarriesAll es next regs.x)
    (hk : d.Awaits k next regs.e regs.r regs.s) : d.Faces (.enter scope k es) regs := by
  obtain ⟨hc, hne, hp⟩ := hc
  cases hc with
  | nil => exact absurd rfl hne
  | @cons e es rest next start hrest he =>
    rw [Expr.areProper, Bool.and_eq_true] at hp
    cases es with
    | nil =>
      cases hrest
      exact ⟨hs, next, ⟨he, hp.1⟩, hk⟩
    | cons e' es =>
      exact ⟨hs, rest, ⟨he, hp.1⟩, .sequence ⟨hrest, List.cons_ne_nil _ _, hp.2⟩ hs hk⟩

theorem faces_collect {collected : List Content} {operator : Expr} {scope : Scope} {k : Context}
    {args : List Expr} {regs : Registers} (hs : d.Spans scope regs.e)
    (hc : d.Calls args operator regs.x) (ha : d.HoldsAll collected regs.r)
    (hk : d.Returns k regs.s) : d.Faces (.collect collected operator scope k args) regs := by
  obtain ⟨hp, call, callee, hcall, ho, hargs⟩ := hc
  cases hargs with
  | nil => exact ⟨hs, call, ho, .operator hcall ha hk⟩
  | @cons e rest after arg _ _ hrest hn he =>
    rw [Expr.areProper, Bool.and_eq_true] at hp
    exact ⟨hs, arg, ⟨he, hp.1⟩, .argument hn ⟨hp.2, call, callee, hcall, ho, hrest⟩ hs ha hk⟩

/-! ## Evaluation -/

/-- The machine is at the first argument or at the operator of a call, with its frame. -/
structure Opens (d : Layout) (w : World) (k : Context) (x : NodeId) (env : Option EnvRef)
    (m : Machine) : Prop where
  mirrors : d.Mirrors w m
  rooted : m.Rooted 0
  held : m.Held 0
  next : m.regs.x = x
  env : m.regs.e = env
  rib : m.regs.r = []
  stack : d.Returns k m.regs.s

/-- A frame that was pushed returns to what was awaited then. -/
theorem Tracks.returns_pushed (h : d.Tracks c m) {next : NodeId} {k : Context}
    (hk : d.Awaits k next m.regs.e m.regs.r m.regs.s) :
    ({ d with heap := (m.pushed next).heap } : Layout).Returns k (m.pushed next).regs.s := by
  refine .frame rfl (Heap.cell?_store_head m.heap _ _) rfl (Heap.holdsValues_store m.heap _ _) ?_
  have henv := h.rooted.linked.resolve_env h.rooted.env
  have hlink := h.rooted.linked.resolve_frame h.held
  change Awaits _ k next ((Link.ofRef? m.regs.e).resolve m.heap.generation) m.regs.r
    ((Link.ofRef? m.regs.s).resolve m.heap.generation)
  rw [henv, hlink]
  exact hk.mono (h.mirrors.grows (.extend 0 m.heap _))

/-- A call gets a frame that returns to what follows it; a call that is followed by a return needs
none. -/
theorem Tracks.bracket (h : d.Tracks c m) {inner next : NodeId} {k : Context}
    (hb : d.code.Brackets inner next m.regs.x)
    (hk : d.Awaits k next m.regs.e m.regs.r m.regs.s) :
    (∃ n m' d', m.Steps d.code n m' ∧ d.Alike d' ∧ d.Grows d' ∧
      d'.Opens c.world k inner m.regs.e m') ∨ d.Exhausts c m := by
  rcases hb with ⟨hret, hx⟩ | hframe
  · obtain ⟨hrib, hreturns⟩ := hk.returns hret
    exact .inl ⟨0, m, d, .refl, .refl d, .refl d, h.mirrors, h.rooted, h.held, hx, rfl, hrib,
      hreturns⟩
  · have hstep := h.step_eq hframe
    have ht := h.tick
    have hpush := Machine.pushFrame_eq ht.rooted.linked.capacity_lt next
    by_cases hfit : m.tick.heap.remaining < m.tick.regs.r.length + 1
    · rw [if_pos hfit] at hpush
      simp only [Machine.execute, hpush, Machine.andGoto] at hstep
      exact .inr (exhausts_now hstep (ht.rooted.linked.lacks_requested hfit) ht.mirrors)
    · rw [if_neg hfit] at hpush
      simp only [Machine.execute, hpush, Machine.andGoto] at hstep
      have ha := Machine.advanced_pushed ht.rooted ht.held next hfit
      refine .inl ⟨1, _, { d with heap := (m.tick.pushed next).heap }, .single hstep, ⟨rfl, rfl⟩,
        ht.mirrors.grows ha.keeps, ?_⟩
      have hm := ht.mirrors.extend ha.rooted.linked rfl rfl rfl rfl
      exact ⟨hm.congr rfl rfl rfl rfl, ha.rooted.congr rfl rfl, ha.held.congr rfl rfl, rfl, rfl,
        rfl, ht.returns_pushed hk⟩

end

section

variable {d : Layout} {m : Machine} {w : World} {scope : Scope} {k : Context}

theorem simulates_literal {datum : Datum}
    (h : d.Tracks ⟨.eval (.literal datum) scope k, w⟩ m) :
    d.Simulates ⟨.eval (.literal datum) scope k, w⟩ m (w.eval scope k (.literal datum)) := by
  obtain ⟨-, next, ⟨hc, -⟩, hk⟩ := h.faces
  cases hc with
  | literal hd hn =>
    exact .inl (arrives_next (h.step_eq hn)
      (h.tick.refocus rfl rfl rfl rfl rfl rfl ⟨.datum hd, hk⟩) (.refl d))

theorem simulates_variable {name : String} (h : d.Tracks ⟨.eval (.variable name) scope k, w⟩ m) :
    d.Simulates ⟨.eval (.variable name) scope k, w⟩ m (w.eval scope k (.variable name)) := by
  obtain ⟨hs, next, ⟨hc, -⟩, hk⟩ := h.faces
  cases hc with
  | «variable» hid hn =>
    have hstep := h.step_eq hn
    simp only [Machine.execute] at hstep
    simp only [World.eval]
    rcases h.tick.mirrors.lookup_cases hid hs with ⟨v, u, hv, hu, hold⟩ | ⟨hv, hu⟩
    · simp only [hu] at hstep
      simp only [hv]
      exact .inl (arrives_next hstep
        (h.tick.refocus rfl rfl rfl rfl rfl rfl ⟨hold, hk⟩) (.refl d))
    · simp only [hu] at hstep
      simp only [hv]
      exact finishes_now (r := .error _) hstep hid h.tick.mirrors

theorem simulates_lambda {params : List String} {body : List Expr}
    (h : d.Tracks ⟨.eval (.lambda params body) scope k, w⟩ m) :
    d.Simulates ⟨.eval (.lambda params body) scope k, w⟩ m
      (w.eval scope k (.lambda params body)) := by
  obtain ⟨hs, next, ⟨hc, hp⟩, hk⟩ := h.faces
  simp only [Expr.isProper, Bool.and_eq_true, Bool.not_eq_true', List.isEmpty_eq_false_iff] at hp
  cases hc with
  | @lambda _ ids f _ exit entry _ _ hspell hf hret hbody hn =>
    have hstep := h.step_eq hn
    simp only [Machine.execute, Machine.makeClosure_eq] at hstep
    by_cases hfit : m.tick.heap.remaining < 1
    · simp only [hfit, ↓reduceIte, Machine.andGoto] at hstep
      exact .inr (exhausts_now hstep (Heap.lacks_one hfit) h.tick.mirrors)
    · simp only [hfit, ↓reduceIte, Machine.andGoto] at hstep
      have ha := Machine.advanced_withClosure h.tick.rooted h.tick.held f entry hfit
      have hg := h.tick.mirrors.grows ha.keeps
      have hv : Layout.Holds { d with heap := (m.tick.withClosure f entry).heap }
          (.closure params body scope) (m.tick.withClosure f entry).regs.a :=
        .closure ((Heap.get?_closure_iff _ _ _).mpr ⟨rfl, Heap.cell?_store_head m.heap _ []⟩)
          hspell hf hret ⟨hbody, hp.1.2, hp.2⟩ (hs.mono hg)
      have hk' := hk.mono hg
      exact .inl (arrives_next hstep
        (h.tick.store (f := .deliver _ k) (ha.goto next) rfl rfl rfl rfl ⟨hv, hk'⟩) ⟨rfl, rfl⟩)

theorem simulates_argument {v : Content} {collected : List Content} {rest : List Expr}
    {operator : Expr} {next : NodeId}
    (h : d.Tracks ⟨.deliver v (.argument collected rest operator scope k), w⟩ m)
    (hn : d.code.node? m.regs.x = some (.argument next)) (hc : d.Calls rest operator next)
    (hs : d.Spans scope m.regs.e) (ha : d.HoldsAll collected m.regs.r)
    (hk : d.Returns k m.regs.s) :
    d.Simulates ⟨.deliver v (.argument collected rest operator scope k), w⟩ m
      (w.deliver v (.argument collected rest operator scope k)) := by
  have hstep := h.step_eq hn
  refine .inl (arrives_next hstep (h.tick.refocus rfl rfl rfl rfl rfl rfl ?_) (.refl d))
  refine faces_collect hs hc ?_ hk
  have hall := ha.concat h.faces.1
  rw [← Registers.r_collect] at hall
  exact hall

/-- Capturing the stack makes the pending context a value, which is then the only argument. -/
theorem Opens.capture {call callee arg inner : NodeId} {env : Option EnvRef} {e : Expr}
    (h : d.Opens w k inner env m) (hs : d.Spans scope env)
    (hcall : d.code.node? call = some .apply) (he : d.Carries e call callee)
    (harg : d.code.node? arg = some (.argument callee))
    (hn : d.code.node? inner = some (.conti arg)) {c : Config} (hw : c.world = w) :
    d.Simulates c m (.next ⟨.eval e scope (.operator [.continuation k] k), w⟩) := by
  subst hw
  have hm : d.Mirrors c.world m.tick := h.mirrors.congr rfl rfl rfl rfl
  have hstep := Machine.step_of_node h.mirrors.limit (h.next ▸ hn)
  simp only [Machine.execute, Machine.capture_eq] at hstep
  by_cases hfit : m.tick.heap.remaining < 1
  · simp only [hfit, ↓reduceIte, Machine.andGoto] at hstep
    exact .inr (exhausts_now hstep (Heap.lacks_one hfit) hm)
  · simp only [hfit, ↓reduceIte, Machine.andGoto] at hstep
    have ha := Machine.advanced_withContinuation (m := m.tick) (h.rooted.congr rfl rfl)
      (h.held.congr rfl rfl) hfit
    have hg := hm.grows ha.keeps
    have hv : Layout.Holds { d with heap := m.tick.withContinuation.heap } (.continuation k)
        m.tick.withContinuation.regs.a :=
      .continuation ((Heap.get?_continuation_iff _ _ _).mpr
        ⟨rfl, Heap.cell?_store_head m.heap _ []⟩) (h.stack.mono hg)
    have hcalls : d.Calls [] e callee := ⟨rfl, call, callee, hcall, he, .nil⟩
    have hspans : d.Spans scope m.regs.e := h.env ▸ hs
    have hnil : d.HoldsAll [] m.regs.r := h.rib ▸ .nil
    have hk := h.stack.mono hg
    have ht : Layout.Tracks { d with heap := m.tick.withContinuation.heap }
        ⟨.deliver (.continuation k) (.argument [] [] e scope k), c.world⟩
        (m.tick.withContinuation.goto arg) :=
      ⟨(hm.extend ha.rooted.linked rfl rfl rfl rfl).congr rfl rfl rfl rfl, ha.rooted.congr rfl rfl,
        ha.held.congr rfl rfl, hv,
        .argument harg (hcalls.mono hg) (hspans.mono hg) (hnil.mono hg) hk⟩
    exact (simulates_argument ht harg (hcalls.mono hg) (hspans.mono hg) (hnil.mono hg) hk).prepend
      (.single hstep) ⟨rfl, rfl⟩ rfl (.inl Nat.one_pos)

theorem simulates_callCc {e : Expr} (h : d.Tracks ⟨.eval (.callCc e) scope k, w⟩ m) :
    d.Simulates ⟨.eval (.callCc e) scope k, w⟩ m (w.eval scope k (.callCc e)) := by
  obtain ⟨hs, next, ⟨hc, hp⟩, hk⟩ := h.faces
  cases hc with
  | callCc hcall he harg hn hb =>
    rcases h.bracket hb hk with ⟨n, m', d', hsteps, hd, hg, hopens⟩ | hx
    · refine (hopens.capture (c := ⟨.eval (.callCc e) scope k, w⟩) (hs.mono hg)
        (hg.code.node? hcall) ⟨he.mono hg.symbols hg.code, hp⟩ (hg.code.node? harg)
        (hg.code.node? hn) rfl).prepend hsteps hd rfl (.inr (Nat.le_refl _))
    · exact .inr hx

theorem simulates_call {operator : Expr} {args : List Expr}
    (h : d.Tracks ⟨.eval (.call operator args) scope k, w⟩ m) :
    d.Simulates ⟨.eval (.call operator args) scope k, w⟩ m
      (w.eval scope k (.call operator args)) := by
  obtain ⟨hs, next, ⟨hc, hp⟩, hk⟩ := h.faces
  simp only [Expr.isProper, Bool.and_eq_true] at hp
  cases hc with
  | @call _ _ call callee _ _ _ hcall ho hargs hb =>
    rcases h.bracket hb hk with ⟨n, m', d', hsteps, hd, hg, hopens⟩ | hx
    · have hcalls : d.Calls args operator _ := ⟨hp.2, call, callee, hcall, ⟨ho, hp.1⟩, hargs⟩
      refine .inl ⟨n, m', d', hsteps, hd, ⟨hopens.mirrors, hopens.rooted, hopens.held, ?_⟩,
        .inr ?_⟩
      · exact faces_collect (hopens.env ▸ hs.mono hg) (hopens.next ▸ hcalls.mono hg)
          (hopens.rib ▸ .nil) hopens.stack
      · have := rank_collect [] operator scope k args w
        simp only [Config.rank, Expr.call.sizeOf_spec] at this ⊢
        omega
    · exact .inr hx

/-- An expression is evaluated as its meaning says. -/
theorem Tracks.simulates_eval {e : Expr} (h : d.Tracks ⟨.eval e scope k, w⟩ m) :
    d.Simulates ⟨.eval e scope k, w⟩ m (w.eval scope k e) := by
  obtain ⟨hs, next, ⟨hc, hp⟩, hk⟩ := h.faces
  have hwait : ∀ {f : Focus}, d.Faces f m.regs →
      (Config.mk f w).rank < (Config.mk (.eval e scope k) w).rank →
      d.Simulates ⟨.eval e scope k, w⟩ m (.next ⟨f, w⟩) := fun hf hr =>
    .inl (Tracks.arrives_now ⟨h.mirrors, h.rooted, h.held, hf⟩ hr)
  cases hc with
  | literal => exact simulates_literal h
  | «variable» => exact simulates_variable h
  | lambda => exact simulates_lambda h
  | callCc => exact simulates_callCc h
  | call => exact simulates_call h
  | conditional hyes hno hn hc =>
    simp only [Expr.isProper, Bool.and_eq_true] at hp
    refine hwait ⟨hs, _, ⟨hc, hp.1.1⟩, .branch hn ⟨hyes, hp.1.2⟩ ⟨hno, hp.2⟩ hs hk⟩ ?_
    simp only [Config.rank, Context.rank, Expr.conditional.sizeOf_spec]
    omega
  | assign hid hn hc =>
    refine hwait ⟨hs, _, ⟨hc, hp⟩, .store hid hn hs hk⟩ ?_
    simp only [Config.rank, Context.rank, Expr.assign.sizeOf_spec]
    omega
  | define hid hn hc =>
    refine hwait ⟨hs, _, ⟨hc, hp⟩, .store hid hn hs hk⟩ ?_
    simp only [Config.rank, Context.rank, Expr.define.sizeOf_spec]
    omega
  | @sequence es _ _ hc =>
    simp only [Expr.isProper, Bool.and_eq_true, Bool.not_eq_true', List.isEmpty_eq_false_iff] at hp
    refine hwait (faces_enter hs ⟨hc, hp⟩ hk) ?_
    have hrank := rank_enter scope k es w
    rwa [← Expr.sequence.sizeOf_spec] at hrank

/-! ## Delivery -/

/-- Returning delivers the value to the context that the stack holds. -/
theorem Mirrors.popFrame (h : d.Mirrors w m) (hr : m.Rooted 0) {v : Content}
    (hv : d.Holds v m.regs.a) (hk : d.Returns k m.regs.s) :
    ∃ m', m.popFrame = (.ok (), m') ∧ d.Tracks ⟨.deliver v k, w⟩ m' ∧
      ∀ r' ∈ m'.regs.s, ∃ r ∈ m.regs.s, r'.addr.offset < r.addr.offset := by
  cases hs : m.regs.s with
  | none =>
    rw [hs] at hk
    cases hk
  | some top =>
    rw [hs] at hk
    cases hk with
    | @frame _ _ head rib htop hc hn hrib hk =>
      rw [← h.heap] at htop hc hrib hk
      have ha := Machine.advanced_popped hr (Nat.zero_le _) hc rib
      refine ⟨m.popped head rib, Machine.popFrame_of_frame hr.linked hs (Nat.zero_le _) htop hc hn
        hrib, ⟨h.congr rfl rfl rfl rfl, ha.rooted, ha.held, hv, ?_⟩, ?_⟩
      · have hrib' : (m.popped head rib).regs.r = rib := Registers.r_setRib m.regs rib
        change d.Awaits k head.returnTo _ (m.popped head rib).regs.r _
        rw [hrib']
        exact hk
      · intro r' hr'
        exact ⟨top, rfl, ((hr.linked.link _ _ (Nat.zero_le _) hc).2 r' hr').lt_bound⟩

/-- The machine returns until it is where the value is awaited. -/
theorem Tracks.unwind {v : Content} (n : Nat) (h : d.Tracks ⟨.deliver v k, w⟩ m)
    (hn : ∀ r ∈ m.regs.s, r.addr.offset < n) :
    ∃ j m', m.Steps d.code j m' ∧ d.Tracks ⟨.deliver v k, w⟩ m' ∧
      d.code.node? m'.regs.x ≠ some .ret := by
  induction n generalizing m with
  | zero =>
    refine ⟨0, m, .refl, h, fun hret => ?_⟩
    obtain ⟨-, hk⟩ := h.faces.2.returns hret
    cases hs : m.regs.s with
    | none =>
      rw [hs] at hk
      cases hk
    | some top => exact absurd (hn top hs) (Nat.not_lt_zero _)
  | succ n ih =>
    by_cases hret : d.code.node? m.regs.x = some .ret
    · obtain ⟨-, hk⟩ := h.faces.2.returns hret
      have hstep := h.step_eq hret
      obtain ⟨m', hpop, ht, hlower⟩ := h.tick.mirrors.popFrame h.tick.rooted h.faces.1 hk
      simp only [Machine.execute, hpop, Machine.andContinue] at hstep
      obtain ⟨j, m'', hsteps, ht', hx⟩ := ih ht fun r' hr' => by
        obtain ⟨r, hr, hlt⟩ := hlower r' hr'
        exact Nat.lt_of_lt_of_le hlt (Nat.le_of_lt_succ (hn r hr))
      exact ⟨j + 1, m'', .head hstep hsteps, ht', hx⟩
    · exact ⟨0, m, .refl, h, hret⟩

section

variable {args : List Content} {v : Content}

theorem simulates_closure {params : List String} {ids : List SymbolId} {body : List Expr}
    {r : Ref Closure} {f : FormalsId} {entry exit : NodeId} {env : Option EnvRef}
    (h : d.Tracks ⟨.deliver (.closure params body scope) (.operator args k), w⟩ m)
    (hn : d.code.node? m.regs.x = some .apply) (ha : d.HoldsAll args m.regs.r)
    (hk : d.Returns k m.regs.s) (hu : m.regs.a = .closure r)
    (hget : d.heap.get? r = some ⟨f, entry, env⟩) (hspell : d.symbols.Spells params ids)
    (hf : d.code.formals? f = some ids) (hret : d.code.node? exit = some .ret)
    (hbody : d.CarriesAll body exit entry) (hs : d.Spans scope env) :
    d.Simulates ⟨.deliver (.closure params body scope) (.operator args k), w⟩ m
      (w.apply args k (.closure params body scope)) := by
  have hstep := h.step_eq hn
  rw [← h.mirrors.heap] at hget
  have happly := Machine.applyClosure_eq (m := m.tick) h.rooted.linked.capacity_lt hget hf
  simp only [Machine.execute, Machine.apply, show m.tick.regs.a = .closure r from hu,
    happly] at hstep
  have hlen : (ids.length ≠ m.tick.regs.r.length) ↔ ¬ params.length = args.length := by
    rw [hspell.length_eq, ha.length_eq]
    rfl
  simp only [World.apply]
  by_cases hargs : params.length = args.length
  · rw [if_neg (fun hne => hlen.mp hne hargs)] at hstep
    rw [if_pos hargs]
    by_cases hfit : m.tick.heap.remaining < m.tick.regs.r.length + 1
    · rw [if_pos hfit] at hstep
      exact .inr (exhausts_now hstep (h.tick.rooted.linked.lacks_requested hfit)
        h.tick.mirrors)
    · rw [if_neg hfit] at hstep
      have hadv := Machine.advanced_entered h.tick.rooted h.tick.held hget (Nat.zero_le _) hfit
      have henv := h.rooted.linked.resolve_env (h.rooted.linked.closure_env hget (Nat.zero_le _))
      have hm := h.tick.mirrors.enlarge hf hspell ha hargs hadv.rooted.linked rfl rfl rfl rfl
      have hg : d.Grows { d with
          heap := (m.tick.entered ⟨f, entry, env⟩).heap
          places := d.places ++ [⟨⟨m.heap.used, m.heap.generation⟩⟩] } :=
        (h.tick.mirrors.grows hadv.keeps).trans
          ⟨.refl _, .refl _, .refl _ _, List.prefix_append ..⟩
      refine .inl (arrives_next hstep ⟨hm, hadv.rooted, hadv.held, ?_⟩ ⟨rfl, rfl⟩)
      refine faces_enter (.cons ?_ (Heap.cell?_store_head m.heap _ _) ?_) (hbody.mono hg)
        (.ret (hg.code.node? hret) rfl (hk.mono hg))
      · rw [← h.mirrors.places]
        exact List.getElem?_concat_length
      · change Spans _ scope ((Link.ofRef? env).resolve m.heap.generation)
        rw [henv]
        exact hs.mono hg
  · rw [if_pos (hlen.mpr hargs)] at hstep
    rw [if_neg hargs]
    refine finishes_now (r := .error _) hstep ⟨trivial, ?_, ?_⟩ h.tick.mirrors
    · rw [hspell.length_eq]
    · exact ha.length_eq

theorem simulates_continuation {k' : Context} {r : Ref Continuation} {s : Option FrameRef}
    {depth : Nat} (h : d.Tracks ⟨.deliver (.continuation k') (.operator args k), w⟩ m)
    (hn : d.code.node? m.regs.x = some .apply) (ha : d.HoldsAll args m.regs.r)
    (hu : m.regs.a = .continuation r) (hget : d.heap.get? r = some ⟨s, depth⟩)
    (hk : d.Returns k' s) :
    d.Simulates ⟨.deliver (.continuation k') (.operator args k), w⟩ m
      (w.apply args k (.continuation k')) := by
  have hstep := h.step_eq hn
  rw [← h.mirrors.heap] at hget
  simp only [Machine.execute, Machine.apply,
    show m.tick.regs.a = .continuation r from hu] at hstep
  by_cases hlen : args.length = 1
  · obtain ⟨v, rfl⟩ := List.length_eq_one_iff.mp hlen
    generalize hr : m.regs.r = rib at ha
    cases ha with
    | @cons _ _ u _ hv hs =>
      cases hs
      obtain ⟨m', hpop, ht, -⟩ := Mirrors.popFrame (m := m.tick.thrown ⟨s, depth⟩ u)
        (h.mirrors.congr rfl rfl rfl rfl) (h.rooted.congr rfl rfl) hv hk
      rw [Machine.applyContinuation_eq (m := m.tick) hget hr, hpop] at hstep
      exact .inl (arrives_next hstep ht (.refl d))
  · have hr : m.tick.regs.r.length ≠ 1 := ha.length_eq ▸ hlen
    rw [Machine.applyContinuation_of_refused (m := m.tick) hget hr] at hstep
    have hstop : w.apply args k (.continuation k') =
        .stop (.fault (.arity (.continuation k') (.exactly 1) args.length)) := by
      simp only [World.apply]
      split
      · exact absurd rfl hlen
      · rfl
    rw [hstop]
    exact finishes_now (r := .error _) hstep ⟨trivial, rfl, ha.length_eq⟩ h.tick.mirrors

theorem simulates_procedure {i : Fin Arithmetic.procedures.length}
    (h : d.Tracks ⟨.deliver (.procedure i) (.operator args k), w⟩ m)
    (hn : d.code.node? m.regs.x = some .apply) (ha : d.HoldsAll args m.regs.r)
    (hk : d.Returns k m.regs.s) (hu : m.regs.a = .primitive i) :
    d.Simulates ⟨.deliver (.procedure i) (.operator args k), w⟩ m
      (w.apply args k (.procedure i)) := by
  have hstep := h.step_eq hn
  simp only [Machine.execute, Machine.apply, show m.tick.regs.a = .primitive i from hu] at hstep
  have hmem : Arithmetic.procedures.get i ∈ Arithmetic.procedures := List.get_mem ..
  have hp : m.tick.procedures[i.val]? = some (Arithmetic.procedures.get i).2 := by
    rw [h.tick.mirrors.procedures, List.getElem?_map, List.getElem?_eq_getElem i.isLt]
    rfl
  have hrun := Arithmetic.procedures_congr _ hmem ha.seen
  have htame := Arithmetic.tame_procedures _ hmem m.regs.r
  simp only [World.apply]
  rw [← hrun, ha.length_eq]
  cases haccepts : (Arithmetic.procedures.get i).2.1.accepts m.regs.r.length with
  | false =>
    rw [Machine.applyPrimitive_of_refused hp haccepts] at hstep
    exact finishes_now (r := .error _) hstep ⟨rfl, rfl, rfl⟩ h.tick.mirrors
  | true =>
    cases hr : (Arithmetic.procedures.get i).2.2 m.regs.r with
    | error e =>
      rw [Machine.applyPrimitive_of_error hp haccepts hr] at hstep
      exact finishes_now (r := .error _) hstep rfl h.tick.mirrors
    | ok u =>
      rw [hr] at htame
      obtain ⟨m', hpop, ht, -⟩ := Mirrors.popFrame (m := m.tick.setAccumulator u)
        (h.mirrors.congr rfl rfl rfl rfl) (h.rooted.congr rfl rfl) (d.holds_answered htame) hk
      rw [Machine.applyPrimitive_of_ok hp haccepts hr, hpop] at hstep
      exact .inl (arrives_next hstep ht (.refl d))

theorem simulates_operator (h : d.Tracks ⟨.deliver v (.operator args k), w⟩ m)
    (hn : d.code.node? m.regs.x = some .apply) (ha : d.HoldsAll args m.regs.r)
    (hk : d.Returns k m.regs.s) :
    d.Simulates ⟨.deliver v (.operator args k), w⟩ m (w.apply args k v) := by
  obtain ⟨hv, -⟩ := h.faces
  generalize hu : m.regs.a = u at hv
  cases hv with
  | closure hget hspell hf hret hbody hs =>
    exact simulates_closure h hn ha hk hu hget hspell hf hret hbody hs
  | continuation hget hk' => exact simulates_continuation h hn ha hu hget hk'
  | procedure => exact simulates_procedure h hn ha hk hu
  | @datum datum u hd =>
    have hstep := h.step_eq hn
    have hcall : m.tick.apply d.code = (.error (.notCallable u), m.tick) := by
      unfold Machine.apply
      rw [show m.tick.regs.a = u from hu]
      cases datum <;> cases u <;> first | rfl | exact hd.elim
    simp only [Machine.execute, hcall, Machine.andContinue] at hstep
    exact finishes_now (r := .error _) hstep hd h.tick.mirrors

theorem simulates_store {name : String} {id : SymbolId} {next : NodeId}
    (h : d.Tracks ⟨.deliver v (.store name scope k), w⟩ m) (hid : d.symbols.find? name = some id)
    (hn : d.code.node? m.regs.x = some (.assign id next)) (hs : d.Spans scope m.regs.e)
    (hk : d.Awaits k next m.regs.e m.regs.r m.regs.s) :
    d.Simulates ⟨.deliver v (.store name scope k), w⟩ m (w.deliver v (.store name scope k)) := by
  have hstep := h.step_eq hn
  have hv : d.Holds v m.tick.regs.a := h.faces.1
  have hadv := Machine.advanced_assign h.tick.rooted h.tick.held d.code id m.tick.regs.a
  simp only [Machine.execute] at hstep
  simp only [World.deliver]
  rcases h.tick.mirrors.assign_cases hid hs hv with
    ⟨w', m', hw, hm, hregs, hkeeps, hmirrors⟩ | ⟨hw, hm⟩
  · rw [hm] at hstep hadv
    rw [hw]
    have hg := d.grows_heap hkeeps
    have hadv' := hadv.goto next
    refine .inl (arrives_next hstep
      ⟨hmirrors.congr rfl rfl rfl rfl, hadv'.rooted, hadv'.held, ?_⟩ ⟨rfl, rfl⟩)
    have hfaces : d.Faces (.deliver v k) (m.tick.goto next).regs := ⟨hv, hk⟩
    have hregs' : (m'.goto next).regs = (m.tick.goto next).regs := by simp only [Machine.goto, hregs]
    change Faces _ (.deliver v k) (m'.goto next).regs
    rw [hregs']
    exact ⟨hfaces.1.mono hg, hfaces.2.mono hg⟩
  · rw [hm] at hstep
    rw [hw]
    exact finishes_now (r := .error _) hstep hid h.tick.mirrors

/-- A value is delivered as the context's meaning says. -/
theorem Tracks.simulates_deliver (h : d.Tracks ⟨.deliver v k, w⟩ m)
    (hx : d.code.node? m.regs.x ≠ some .ret) :
    d.Simulates ⟨.deliver v k, w⟩ m (w.deliver v k) := by
  obtain ⟨hv, hk⟩ := h.faces
  cases hk with
  | ret hn => exact absurd hn hx
  | done hn => exact finishes_now (r := .ok _) (h.step_eq hn) hv.shows h.tick.mirrors
  | @sequence rest scope k next _ _ _ _ hc hs hk =>
    exact .inl (Tracks.arrives_now ⟨h.mirrors, h.rooted, h.held, faces_enter hs hc hk⟩
      (rank_enter scope k rest w))
  | @branch yes no scope k onTrue onFalse next _ _ _ _ hn hyes hno hs hk =>
    have hstep := h.step_eq hn
    simp only [Machine.execute, show m.tick.regs.a.isTruthy = !v.isFalse from hv.isTruthy] at hstep
    refine .inl (arrives_next hstep (h.tick.refocus rfl rfl rfl rfl rfl rfl ?_) (.refl d))
    cases hfalse : v.isFalse with
    | true => exact ⟨hs, next, hno, hk⟩
    | false => exact ⟨hs, next, hyes, hk⟩
  | store hid hn hs hk => exact simulates_store h hid hn hs hk
  | argument hn hc hs ha hk => exact simulates_argument h hn hc hs ha hk
  | operator hn ha hk => exact simulates_operator h hn ha hk

end

end

/-- One step of a configuration, as the machine takes it. -/
theorem Tracks.simulates {d : Layout} {c : Config} {m : Machine} (h : d.Tracks c m) :
    d.Simulates c m c.step := by
  obtain ⟨focus, w⟩ := c
  cases focus with
  | eval e scope k => exact h.simulates_eval
  | deliver v k =>
    obtain ⟨n, m', hsteps, ht, hx⟩ := h.unwind m.heap.used fun r hr => (h.held r hr).lt_bound
    exact (ht.simulates_deliver hx).prepend hsteps (.refl d) rfl (.inr (Nat.le_refl _))

end Layout

end ClosureMachine
