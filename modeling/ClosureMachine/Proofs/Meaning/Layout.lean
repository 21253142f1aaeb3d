import ClosureMachine.Proofs.Heap.Linked
import ClosureMachine.Proofs.Machine.Procedures
import ClosureMachine.Proofs.Meaning.Compiled
import ClosureMachine.Proofs.Meaning.Reference

/-!
How scopes, contents and contexts are laid out in a heap. A pending context is an instruction to go
on at, together with an environment, an argument rib and a control stack (`Awaits`); a context that
is about to be returned to is a stack alone (`Returns`). Names are known by their ids and frames by
their places. Nothing of this changes when the heap is extended or a slot is assigned, and when
code, symbols and frames are added (`Holds.mono`, `Awaits.mono`).
-/

namespace ClosureMachine

/-- What it takes to find contents in a heap. -/
structure Layout where
  symbols : SymbolTable
  code : Code
  heap : Heap
  /-- Where the frames are stored, in order of their numbers. -/
  places : List EnvRef

namespace Layout

structure Grows (d d' : Layout) : Prop where
  symbols : d.symbols.Grows d'.symbols
  code : d.code.Grows d'.code
  heap : d.heap.Keeps 0 d'.heap
  places : d.places <+: d'.places

theorem Grows.refl (d : Layout) : d.Grows d :=
  ⟨.refl _, .refl _, .refl _ _, List.prefix_refl _⟩

theorem Grows.trans {d d' d'' : Layout} (h : d.Grows d') (h' : d'.Grows d'') : d.Grows d'' :=
  ⟨h.symbols.trans h'.symbols, h.code.trans h'.code, h.heap.trans h'.heap,
    h.places.trans h'.places⟩

theorem Grows.place {d d' : Layout} (h : d.Grows d') {n : Nat} {r : EnvRef}
    (hr : d.places[n]? = some r) : d'.places[n]? = some r := by
  obtain ⟨rest, hrest⟩ := h.places
  rw [← hrest, List.getElem?_append_left (List.getElem?_eq_some_iff.mp hr).1, hr]

/-- The layout after a change of the heap. -/
theorem grows_heap (d : Layout) {heap : Heap} (hk : d.heap.Keeps 0 heap) :
    d.Grows { d with heap } :=
  ⟨.refl _, .refl _, hk, List.prefix_refl _⟩

/-- The environment consists of the frames that the scope lists. -/
inductive Spans (d : Layout) : Scope → Option EnvRef → Prop
  | nil : Spans d [] none
  | cons {n : Nat} {scope : Scope} {r : EnvRef} {h : EnvHeader} : d.places[n]? = some r →
    d.heap.cell? r.addr.offset = some (.environment h) →
    Spans d scope (h.parent.resolve d.heap.generation) → Spans d (n :: scope) (some r)

/-- Code for an expression that has no empty part. -/
def Carries (d : Layout) (e : Expr) (next start : NodeId) : Prop :=
  Compiled d.symbols d.code e next start ∧ e.isProper = true

/-- Code for expressions that are evaluated one after the other; there is at least one. -/
def CarriesAll (d : Layout) (es : List Expr) (next start : NodeId) : Prop :=
  CompiledAll d.symbols d.code es next start ∧ es ≠ [] ∧ Expr.areProper es = true

/-- Code for the rest of a call. -/
structure Calls (d : Layout) (args : List Expr) (operator : Expr) (start : NodeId) : Prop where
  proper : Expr.areProper args = true
  code : ∃ call callee, d.code.node? call = some .apply ∧ d.Carries operator call callee ∧
    CompiledArgs d.symbols d.code args callee start

mutual

/-- The value stands for the content. -/
inductive Holds (d : Layout) : Content → Value → Prop
  | datum {c : Datum} {v : Value} : c.Encodes d.symbols v → Holds d (.datum c) v
  | closure {params : List String} {ids : List SymbolId} {body : List Expr} {scope : Scope}
    {r : Ref Closure} {f : FormalsId} {entry exit : NodeId} {env : Option EnvRef} :
    d.heap.get? r = some ⟨f, entry, env⟩ → d.symbols.Spells params ids →
    d.code.formals? f = some ids → d.code.node? exit = some .ret → d.CarriesAll body exit entry →
    d.Spans scope env → Holds d (.closure params body scope) (.closure r)
  | continuation {k : Context} {r : Ref Continuation} {s : Option FrameRef} {depth : Nat} :
    d.heap.get? r = some ⟨s, depth⟩ → Returns d k s → Holds d (.continuation k) (.continuation r)
  | procedure {i : Fin Arithmetic.procedures.length} : Holds d (.procedure i) (.primitive i)

inductive HoldsAll (d : Layout) : List Content → List Value → Prop
  | nil : HoldsAll d [] []
  | cons {c : Content} {cs : List Content} {v : Value} {vs : List Value} : Holds d c v →
    HoldsAll d cs vs → HoldsAll d (c :: cs) (v :: vs)

/-- The context is what the stack returns to. -/
inductive Returns (d : Layout) : Context → Option FrameRef → Prop
  | frame {k : Context} {top : FrameRef} {h : FrameHeader} {rib : List Value} :
    top.addr.generation = d.heap.generation → d.heap.cell? top.addr.offset = some (.frame h) →
    rib.length = h.length → d.heap.HoldsValues (top.addr.offset + 1) rib →
    Awaits d k h.returnTo (h.env.resolve d.heap.generation) rib
      (h.link.resolve d.heap.generation) → Returns d k (some top)

/-- The context is what happens from an instruction on, with the given environment, argument rib and
stack. -/
inductive Awaits (d : Layout) :
    Context → NodeId → Option EnvRef → List Value → Option FrameRef → Prop
  | done {x : NodeId} {env : Option EnvRef} {rib : List Value} {s : Option FrameRef} :
    d.code.node? x = some .halt → Awaits d .done x env rib s
  | sequence {rest : List Expr} {scope : Scope} {k : Context} {next x : NodeId}
    {env : Option EnvRef} {rib : List Value} {s : Option FrameRef} : d.CarriesAll rest next x →
    d.Spans scope env → Awaits d k next env rib s → Awaits d (.sequence rest scope k) x env rib s
  | branch {yes no : Expr} {scope : Scope} {k : Context} {onTrue onFalse next x : NodeId}
    {env : Option EnvRef} {rib : List Value} {s : Option FrameRef} :
    d.code.node? x = some (.test onTrue onFalse) → d.Carries yes next onTrue →
    d.Carries no next onFalse → d.Spans scope env → Awaits d k next env rib s →
    Awaits d (.branch yes no scope k) x env rib s
  | store {name : String} {id : SymbolId} {scope : Scope} {k : Context} {next x : NodeId}
    {env : Option EnvRef} {rib : List Value} {s : Option FrameRef} :
    d.symbols.find? name = some id → d.code.node? x = some (.assign id next) →
    d.Spans scope env → Awaits d k next env rib s → Awaits d (.store name scope k) x env rib s
  | argument {collected : List Content} {rest : List Expr} {operator : Expr} {scope : Scope}
    {k : Context} {next x : NodeId} {env : Option EnvRef} {rib : List Value}
    {s : Option FrameRef} : d.code.node? x = some (.argument next) → d.Calls rest operator next →
    d.Spans scope env → HoldsAll d collected rib → Returns d k s →
    Awaits d (.argument collected rest operator scope k) x env rib s
  | operator {args : List Content} {k : Context} {x : NodeId} {env : Option EnvRef}
    {rib : List Value} {s : Option FrameRef} : d.code.node? x = some .apply →
    HoldsAll d args rib → Returns d k s → Awaits d (.operator args k) x env rib s
  /-- Any context, when the procedure that was called for it is left. -/
  | ret {k : Context} {x : NodeId} {env : Option EnvRef} {rib : List Value}
    {s : Option FrameRef} : d.code.node? x = some .ret → rib = [] → Returns d k s →
    Awaits d k x env rib s

end

section Mono

variable {d d' : Layout}

theorem Spans.mono (hg : d.Grows d') {scope : Scope} {env : Option EnvRef}
    (h : d.Spans scope env) : d'.Spans scope env := by
  induction h with
  | nil => exact .nil
  | cons hr hc _ ih =>
    rw [← hg.heap.generation] at ih
    exact .cons (hg.place hr) (hg.heap.record _ _ hc rfl) ih

theorem Carries.mono (hg : d.Grows d') {e : Expr} {next start : NodeId}
    (h : d.Carries e next start) : d'.Carries e next start :=
  ⟨h.1.mono hg.symbols hg.code, h.2⟩

theorem CarriesAll.mono (hg : d.Grows d') {es : List Expr} {next start : NodeId}
    (h : d.CarriesAll es next start) : d'.CarriesAll es next start :=
  ⟨h.1.mono hg.symbols hg.code, h.2⟩

theorem Calls.mono (hg : d.Grows d') {args : List Expr} {operator : Expr} {start : NodeId}
    (h : d.Calls args operator start) : d'.Calls args operator start := by
  obtain ⟨call, callee, hn, ho, ha⟩ := h.code
  exact ⟨h.proper, call, callee, hg.code.node? hn, ho.mono hg, ha.mono hg.symbols hg.code⟩

mutual

theorem Holds.mono (hg : d.Grows d') {c : Content} {v : Value} : d.Holds c v → d'.Holds c v
  | .datum hc => .datum (hc.mono hg.symbols)
  | .closure hc hs hf hret hb he =>
    .closure (hg.heap.get?_closure hc) (hs.mono hg.symbols) (hg.code.formals? hf)
      (hg.code.node? hret) (hb.mono hg) (he.mono hg)
  | .continuation hc hk => .continuation (hg.heap.get?_continuation hc) (hk.mono hg)
  | .procedure => .procedure

theorem HoldsAll.mono (hg : d.Grows d') {cs : List Content} {vs : List Value} :
    d.HoldsAll cs vs → d'.HoldsAll cs vs
  | .nil => .nil
  | .cons h hs => .cons (h.mono hg) (hs.mono hg)

theorem Returns.mono (hg : d.Grows d') {k : Context} {s : Option FrameRef} :
    d.Returns k s → d'.Returns k s
  | .frame htop hc hn hr hk =>
    .frame (htop.trans hg.heap.generation.symm) (hg.heap.record _ _ hc rfl) hn
      (hg.heap.holdsValues_rib (Nat.zero_le _) hc hn hr)
      (hg.heap.generation.symm ▸ hk.mono hg)

theorem Awaits.mono (hg : d.Grows d') {k : Context} {x : NodeId} {env : Option EnvRef}
    {rib : List Value} {s : Option FrameRef} : d.Awaits k x env rib s → d'.Awaits k x env rib s
  | .done hn => .done (hg.code.node? hn)
  | .sequence hc he hk => .sequence (hc.mono hg) (he.mono hg) (hk.mono hg)
  | .branch hn hyes hno he hk =>
    .branch (hg.code.node? hn) (hyes.mono hg) (hno.mono hg) (he.mono hg) (hk.mono hg)
  | .store hid hn he hk =>
    .store (hg.symbols.find? hid) (hg.code.node? hn) (he.mono hg) (hk.mono hg)
  | .argument hn hc he hs hk =>
    .argument (hg.code.node? hn) (hc.mono hg) (he.mono hg) (hs.mono hg) (hk.mono hg)
  | .operator hn hs hk => .operator (hg.code.node? hn) (hs.mono hg) (hk.mono hg)
  | .ret hn hr hk => .ret (hg.code.node? hn) hr (hk.mono hg)

end

end Mono

/-! ## Contents and values -/

section

variable {d : Layout}

theorem HoldsAll.length_eq {cs : List Content} {vs : List Value} :
    d.HoldsAll cs vs → cs.length = vs.length
  | .nil => rfl
  | .cons _ hs => congrArg (· + 1) hs.length_eq

theorem HoldsAll.concat {cs : List Content} {vs : List Value} {c : Content} {v : Value}
    (h : d.Holds c v) : d.HoldsAll cs vs → d.HoldsAll (cs ++ [c]) (vs ++ [v])
  | .nil => .cons h .nil
  | .cons h' hs => .cons h' (hs.concat h)

theorem HoldsAll.getElem? {cs : List Content} {vs : List Value} {i : Nat} {c : Content} :
    d.HoldsAll cs vs → cs[i]? = some c → ∃ v, vs[i]? = some v ∧ d.Holds c v
  | .nil, h => by simp at h
  | .cons h hs, hi => by
    cases i with
    | zero =>
      cases hi
      exact ⟨_, rfl, h⟩
    | succ i => exact hs.getElem? hi

/-- The machine takes for true what is true. -/
theorem Holds.isTruthy {c : Content} {v : Value} (h : d.Holds c v) :
    v.isTruthy = !c.isFalse := by
  cases h with
  | @datum c v hc =>
    cases c <;> cases v <;> first | rfl | exact hc.elim | skip
    next b b' =>
      cases hc
      cases b <;> rfl
  | _ => rfl

/-- A host procedure sees the same number. -/
theorem Holds.asInt? {c : Content} {v : Value} (h : d.Holds c v) : v.asInt? = c.seen.asInt? := by
  cases h with
  | @datum c v hc =>
    cases c <;> cases v <;> first | rfl | exact hc.elim | skip
    exact congrArg some hc.symm
  | _ => rfl

theorem HoldsAll.seen {cs : List Content} {vs : List Value} :
    d.HoldsAll cs vs → vs.map Value.asInt? = (cs.map Content.seen).map Value.asInt?
  | .nil => rfl
  | .cons h hs => by rw [List.map_cons, List.map_cons, List.map_cons, h.asInt?, hs.seen]

theorem holds_answered (d : Layout) {v : Value} (h : v.IsScalar) : d.Holds (.answered v) v := by
  cases v with
  | int n => exact .datum rfl
  | bool b => exact .datum rfl
  | _ => exact h.elim

end

/-- What is awaited at a return is what the stack returns to. -/
theorem Awaits.returns {d : Layout} {k : Context} {x : NodeId} {env : Option EnvRef}
    {rib : List Value} {s : Option FrameRef} (h : d.Awaits k x env rib s)
    (hn : d.code.node? x = some .ret) : rib = [] ∧ d.Returns k s := by
  cases h with
  | ret _ hr hk => exact ⟨hr, hk⟩
  | sequence hc => exact absurd hn (hc.1.not_ret hc.2.1 hc.2.2)
  | done hx => cases hx.symm.trans hn
  | branch hx => cases hx.symm.trans hn
  | store _ hx => cases hx.symm.trans hn
  | argument hx => cases hx.symm.trans hn
  | operator hx => cases hx.symm.trans hn

end Layout

end ClosureMachine
