import ClosureMachine.Proofs.Lowering.Workspace
import ClosureMachine.Proofs.Meaning.Compiled

/-!
Lowering writes what it should. Where a form can be read as an expression, lowering it succeeds and
the code it writes implements that expression (`follows_form`); where it cannot, lowering stops. As
long as ids fit in a word, valid code stays valid if the expression is proper. The globals that
appear are those that the expression defines.
-/

namespace ClosureMachine

open Workspace

namespace Lowering

/-- What a piece of lowering has achieved: `names` are declared, and if ids still fit in a word then
`done` holds, and valid code has stayed valid provided that `safe` holds. -/
structure Laid (w w' : Workspace) (names : List String) (safe done : Prop) : Prop where
  declares : w.Declares names w'
  done : w'.code.size < wordLimit → done
  valid : w'.code.size < wordLimit → w.code.Valid → safe → w'.code.Valid

theorem Laid.trans {w w' w'' : Workspace} {names names' : List String}
    {safe safe' done done' : Prop} (h : Laid w w' names safe done)
    (h' : Laid w' w'' names' safe' done') (hx : w'.Extends w'') :
    Laid w w'' (names ++ names') (safe ∧ safe') (done ∧ done') where
  declares := h.declares.append h'.declares hx
  done hw := ⟨h.done (Nat.lt_of_le_of_lt hx.code.size_le hw), h'.done hw⟩
  valid hw hv hs :=
    h'.valid hw (h.valid (Nat.lt_of_le_of_lt hx.code.size_le hw) hv hs.1) hs.2

theorem Laid.imp {w w' : Workspace} {names names' : List String} {safe safe' done done' : Prop}
    (h : Laid w w' names safe done) (hn : names = names') (hd : done → done')
    (hs : done → safe' → safe) : Laid w w' names' safe' done' where
  declares := hn ▸ h.declares
  done hw := hd (h.done hw)
  valid hw hv hsafe := h.valid hw hv (hs (h.done hw) hsafe)

/-- Nothing has been written or declared. -/
theorem laid_of_same {w w' : Workspace} (hc : w'.code = w.code) (hg : w'.globals = w.globals) :
    Laid w w' [] True True where
  declares := declares_of_same hg
  done _ := trivial
  valid _ hv _ := hc ▸ hv

/-- Code from `start` to `next` has been written that is as `C` says. -/
def Lowers (C : SymbolTable → Code → NodeId → NodeId → Prop) (names : List String) (proper : Bool)
    (w : Workspace) (next start : NodeId) (w' : Workspace) : Prop :=
  Laid w w' names (next < w.code.size ∧ proper = true)
    (C w'.symbols w'.code next start ∧ (next < w.code.size → start < w'.code.size))

/-- An expression has been lowered. -/
abbrev LowersExpr (w : Workspace) (next : NodeId) (e : Expr) (start : NodeId) (w' : Workspace) :=
  Lowers (Compiled · · e) e.defined e.isProper w next start w'

abbrev LowersAll (w : Workspace) (next : NodeId) (es : List Expr) (start : NodeId)
    (w' : Workspace) :=
  Lowers (CompiledAll · · es) (Expr.definedAll es) (Expr.areProper es) w next start w'

abbrev LowersArgs (w : Workspace) (next : NodeId) (es : List Expr) (start : NodeId)
    (w' : Workspace) :=
  Lowers (CompiledArgs · · es) (Expr.definedAll es) (Expr.areProper es) w next start w'

/-! ## Instructions -/

/-- An instruction has been added. -/
abbrev Adds (w : Workspace) (n : Node) (id : NodeId) (w' : Workspace) :=
  Laid w w' [] (w'.code.Carries n) (w'.code.node? id = some n ∧ id < w'.code.size)

theorem emit_adds (n : Node) (hn : ∀ stack var, n ≠ .nuate stack var) (w : Workspace) :
    ∃ id w', (emit n).run w = (some id, w') ∧ w.Extends w' ∧ Adds w n id w' := by
  refine ⟨_, _, run_emit n w, ?_, ?_⟩
  · constructor
    case symbols => exact .refl _
    case keywords => rfl
    case code => exact Code.grows_append _ _
    case formals =>
      simp only [Code.size_append, Code.append_formals]
      omega
    case installs =>
      intro id stack var hid
      simp only [Code.node?, Code.append_nodes, Array.getElem?_push] at hid
      split at hid
      · exact absurd (Option.some.inj hid) (hn stack var)
      · exact hid
    case bound => exact fun _ _ h => h
    case declared => exact fun _ _ h => .inl h
    case distinct => exact id
  · refine ⟨declares_of_same rfl, ?_, ?_⟩
    · intro hw
      simp only [Code.size_append] at hw
      have hnode := Code.node?_append_new w.code n
      rw [Code.append_fst (by omega)]
      exact ⟨hnode, Code.node?_lt hnode⟩
    · exact fun _ hv hc => hv.push (Code.grows_append _ _) (Code.append_nodes _ _) hc

theorem Follows.emit {γ δ : Type} (n : Node) (hn : ∀ stack var, n ≠ .nuate stack var)
    {w : Workspace} {f : NodeId → Lowering γ} {o : Option δ} {S : δ → γ → Workspace → Prop}
    (h : ∀ id w', w.Extends w' → Adds w n id w' → Follows (f id) o w' S) :
    Follows (Lowering.emit n >>= f) o w S := by
  obtain ⟨id, w', hrun, hx, hadds⟩ := emit_adds n hn w
  exact .after hrun hx (h id w' hx hadds)

theorem follows_emit {δ : Type} (n : Node) (hn : ∀ stack var, n ≠ .nuate stack var)
    {w : Workspace} {d : δ} {S : δ → NodeId → Workspace → Prop}
    (h : ∀ id w', w.Extends w' → Adds w n id w' → S d id w') :
    Follows (Lowering.emit n) (some d) w S := by
  obtain ⟨id, w', hrun, hx, hadds⟩ := emit_adds n hn w
  exact ⟨id, w', hrun, hx, h id w' hx hadds⟩

theorem extends_addClose (names : List SymbolId) (body next : NodeId) (w : Workspace) :
    w.Extends { w with code := (w.code.addClose names body next).2 } where
  symbols := .refl _
  keywords := rfl
  code := Code.grows_addClose _ _ _ _
  formals := by
    simp only [Code.addClose, Code.addFormals, Code.append, Code.size, Array.size_push]
    omega
  installs id stack var hid := by
    simp only [Code.node?, Code.addClose, Code.addFormals, Code.append, Code.size,
      Array.getElem?_push] at hid
    split at hid
    · cases hid
    · exact hid
  bound _ _ h := h
  declared _ _ h := .inl h
  distinct h := h

/-- A closing instruction has been added together with its parameter list. -/
abbrev AddsClose (w : Workspace) (names : List SymbolId) (body next id : NodeId) (f : FormalsId)
    (w' : Workspace) :=
  Laid w w' [] (w'.code.Carries (.close f body next))
    (w'.code.node? id = some (.close f body next) ∧ id < w'.code.size ∧
      w'.code.formals? f = some names)

private theorem adds_addClose (names : List SymbolId) (body next : NodeId) {w : Workspace}
    (hr : w.Ready) :
    AddsClose w names body next (w.code.addClose names body next).1
      (w.code.formals.size % wordLimit)
      { w with code := (w.code.addClose names body next).2 } := by
  refine ⟨declares_of_same rfl, ?_, ?_⟩
  · intro hw
    simp only [Code.size_addClose] at hw
    have hsize : (w.code.addClose names body next).1 = w.code.size :=
      Nat.mod_eq_of_lt (Nat.lt_of_succ_lt hw)
    have hnode : (w.code.addClose names body next).2.node? w.code.size =
        some (.close (w.code.formals.size % wordLimit) body next) := Array.getElem?_push_size
    have hle := hr.formals
    have hformals : w.code.formals.size % wordLimit = w.code.formals.size :=
      Nat.mod_eq_of_lt (by omega)
    rw [hsize]
    refine ⟨hnode, Code.node?_lt hnode, ?_⟩
    rw [hformals]
    exact Array.getElem?_push_size
  · exact fun _ hv hc => hv.push (Code.grows_addClose _ _ _ _) rfl hc

theorem follows_emitClose {δ : Type} {names : List SymbolId} {body next : NodeId} {w : Workspace}
    (hr : w.Ready) {d : δ} {S : δ → NodeId → Workspace → Prop}
    (h : ∀ f id w', w.Extends w' → AddsClose w names body next id f w' → S d id w') :
    Follows (emitClose names body next) (some d) w S := by
  have hx := extends_addClose names body next w
  exact ⟨_, _, run_emitClose names body next w, hx, h _ _ _ hx (adds_addClose names body next hr)⟩

/-- A call at `inner` has been bracketed. -/
theorem follows_bracket (inner next : NodeId) (w : Workspace) :
    Follows (bracket inner next) (some ()) w fun _ start w' =>
      Laid w w' [] (inner < w'.code.size ∧ next < w'.code.size)
        (w'.code.Brackets inner next start ∧ (inner < w.code.size → start < w'.code.size)) := by
  unfold bracket
  refine .after (show (get : Lowering Workspace).run w = (some w, w) from rfl) (.refl w) ?_
  split
  · next htail =>
    have hret : w.code.node? next = some .ret := by simpa [Code.isTail] using htail
    exact follows_pure ((laid_of_same rfl rfl).imp rfl
      (fun _ => ⟨.inl ⟨hret, rfl⟩, id⟩) (fun _ _ => trivial))
  · refine follows_emit (.frame next inner) nofun fun id w' hx hadds => hadds.imp rfl ?_ ?_
    · exact fun ⟨hn, hlt⟩ => ⟨.inr hn, fun _ => hlt⟩
    · rintro - ⟨hinner, hnext⟩
      refine ⟨?_, nofun⟩
      simp only [Node.successors, List.mem_cons, List.not_mem_nil, or_false]
      rintro t (rfl | rfl)
      · exact hinner
      · exact hnext

/-! ## Names -/

theorem extends_symbol (name : String) (w : Workspace) :
    w.Extends { w with symbols := (w.symbols.intern name).2 } where
  symbols := w.symbols.grows_intern name
  keywords := rfl
  code := .refl _
  formals := Nat.le_refl _
  installs _ _ _ h := h
  bound _ _ h := h
  declared _ _ h := .inl h
  distinct h := h

theorem Follows.symbol {γ δ : Type} {name : String} {w : Workspace} {f : SymbolId → Lowering γ}
    {o : Option δ} {S : δ → γ → Workspace → Prop}
    (h : ∀ id w', w.Extends w' → w'.symbols.find? name = some id → Laid w w' [] True True →
      Follows (f id) o w' S) : Follows (Lowering.symbol name >>= f) o w S :=
  .after (run_symbol name w) (extends_symbol name w)
    (h _ _ (extends_symbol name w) (w.symbols.find?_intern name) (laid_of_same rfl rfl))

theorem follows_parameters (params : List Form) (w : Workspace) :
    Follows (parameters params) (Form.names? params) w fun names ids w' =>
      w'.symbols.Spells names ids ∧ Laid w w' [] True True := by
  induction params generalizing w with
  | nil => exact follows_pure ⟨rfl, laid_of_same rfl rfl⟩
  | cons f rest ih =>
    cases f with
    | atom name =>
      rw [parameters, Form.names?]
      refine .symbol fun id w₁ hx₁ hid hl₁ => ?_
      refine (ih w₁).bind fun names ids w₂ hx₂ ⟨hs, hl₂⟩ => follows_pure ⟨?_, ?_⟩
      · exact hs.cons (hx₂.symbols.find? hid)
      · exact (hl₁.trans hl₂ hx₂).imp rfl (fun _ => trivial) (fun _ _ => ⟨trivial, trivial⟩)
    | int n => exact follows_failure _ _
    | list items => exact follows_failure _ _

theorem follows_quotedValue (datum : Form) (w : Workspace) :
    Follows (quotedValue datum) (some (Datum.ofForm datum)) w fun d v w' =>
      d.Encodes w'.symbols v ∧ Laid w w' [] True True := by
  cases datum with
  | int n => exact follows_pure ⟨rfl, laid_of_same rfl rfl⟩
  | list items => exact follows_pure ⟨trivial, laid_of_same rfl rfl⟩
  | atom name =>
    rw [quotedValue]
    exact .symbol fun id w' _ hid hl => follows_pure ⟨hid, hl⟩

private theorem extends_declare {name : String} {id : SymbolId} {w : Workspace}
    (hid : w.symbols.find? name = some id) (hn : ¬ w.globals.contains id) :
    w.Extends { w with globals := w.globals.define id .unspecified } where
  symbols := .refl _
  keywords := rfl
  code := .refl _
  formals := Nat.le_refl _
  installs _ _ _ h := h
  bound k v hv := by
    rw [Globals.get?_define]
    split
    · next hk =>
      subst hk
      rw [Globals.contains, hv] at hn
      simp at hn
    · exact hv
  declared k v hv := by
    rcases Globals.mem_define hv with ⟨rfl, hnew⟩ | hold
    · exact .inr ⟨hnew, name, hid⟩
    · exact .inl hold
  distinct h := h.define id .unspecified

private theorem laid_declare {name : String} {id : SymbolId} {w : Workspace}
    (hid : w.symbols.find? name = some id) (hn : ¬ w.globals.contains id) :
    Laid w { w with globals := w.globals.define id .unspecified } [name] True True := by
  refine ⟨⟨?_, ?_⟩, fun _ => trivial, fun _ hv _ => hv⟩
  · intro name' hname
    cases List.mem_singleton.mp hname
    exact ⟨id, .unspecified, hid, by rw [Globals.get?_define, if_pos rfl]⟩
  · intro k v hv
    rw [Globals.get?_define] at hv
    split at hv
    · next hk =>
      subst hk
      cases hv
      exact .inr ⟨rfl, name, List.mem_singleton_self _, hid⟩
    · exact .inl hv

theorem follows_target (declaring : Bool) (name : String) (w : Workspace) :
    Follows (target declaring name) (some ()) w fun _ id w' =>
      w'.symbols.find? name = some id ∧
        Laid w w' (if declaring then [name] else []) True True := by
  unfold target
  refine .symbol fun id w₁ hx₁ hid hl₁ => ?_
  cases declaring with
  | false => exact follows_pure ⟨hid, hl₁⟩
  | true =>
    by_cases hc : w₁.globals.contains id
    · have hrun : (declare id).run w₁ = (some (), w₁) := by rw [run_declare, if_pos hc]
      refine .after hrun (.refl w₁) (follows_pure ⟨hid, ⟨?_, ?_⟩, hl₁.done, hl₁.valid⟩)
      · intro name' hname
        cases List.mem_singleton.mp hname
        obtain ⟨v, hv⟩ := Option.isSome_iff_exists.mp hc
        exact ⟨id, v, hid, hv⟩
      · intro k v hv
        rcases hl₁.declares.fresh k v hv with hv | ⟨-, _, hmem, -⟩
        · exact .inl hv
        · cases hmem
    · have hrun : (declare id).run w₁ =
          (some (), { w₁ with globals := w₁.globals.define id .unspecified }) := by
        rw [run_declare, if_neg hc]
      have hx := extends_declare hid hc
      refine .after hrun hx (follows_pure ⟨hid, ?_⟩)
      exact (hl₁.trans (laid_declare hid hc) hx).imp rfl (fun _ => trivial)
        (fun _ _ => ⟨trivial, trivial⟩)

/-- Keywords are recognised by their spelling. -/
theorem run_keyword?_of_fits {w : Workspace} (hw : w.keywords.Fits w.symbols) (f : Form) :
    (keyword? f).run w = (some f.keyword?, w) := by
  cases f with
  | atom name =>
    change (some ((w.symbols.find? name).bind w.keywords.classify), w) = _
    rw [hw.classify name]
    rfl
  | int n => rfl
  | list items => rfl

theorem run_keyword? {w : Workspace} (hw : w.Ready) (f : Form) :
    (keyword? f).run w = (some f.keyword?, w) := run_keyword?_of_fits hw.keywords f

/-! ## Expressions -/

section Expressions

variable {w : Workspace} {next : NodeId}

private theorem carries_single {c : Code} {n : Node} {next : NodeId}
    (hs : n.successors = [next]) (hf : ∀ f body next, n ≠ .close f body next)
    (h : next < c.size) : c.Carries n := by
  refine ⟨?_, fun f body next hn => absurd hn (hf f body next)⟩
  rw [hs]
  simpa using h

/-- An instruction with one successor has been added in front of it. -/
private theorem Laid.lowers {w₁ w₂ : Workspace} {n : Node} {id : NodeId} {e : Expr}
    (hl : Laid w w₁ [] True True) (hx₁ : w.Extends w₁) (h : Adds w₁ n id w₂)
    (hx₂ : w₁.Extends w₂) (hs : n.successors = [next]) (hf : ∀ f body next, n ≠ .close f body next)
    (hd : e.defined = [])
    (hc : w₂.code.node? id = some n → Compiled w₂.symbols w₂.code e next id) :
    LowersExpr w next e id w₂ := by
  refine (hl.trans h hx₂).imp hd.symm (fun ⟨_, hn, hlt⟩ => ⟨hc hn, fun _ => hlt⟩) ?_
  rintro - ⟨hnext, -⟩
  have hle := (hx₁.trans hx₂).code.size_le
  exact ⟨trivial, carries_single hs hf (Nat.lt_of_lt_of_le hnext hle)⟩

theorem follows_literal {d : Datum} {v : Value} (hd : d.Encodes w.symbols v) :
    Follows (emit (.constant v next)) (some (.literal d)) w (LowersExpr w next) :=
  follows_emit (.constant v next) nofun fun _ _ hx h =>
    (laid_of_same rfl rfl).lowers (.refl w) h hx rfl nofun rfl
      fun hn => .literal (hd.mono hx.symbols) hn

theorem follows_variable {name : String} :
    Follows (do emit (.refer (← symbol name) next)) (some (.variable name)) w
      (LowersExpr w next) :=
  .symbol fun id _ hx₁ hid hl => follows_emit (.refer id next) nofun fun _ _ hx₂ h =>
    hl.lowers hx₁ h hx₂ rfl nofun rfl fun hn => .variable (hx₂.symbols.find? hid) hn

theorem follows_quotation (items : List Form) :
    Follows (quotation items next)
      (items.head?.map fun datum => Expr.literal (.ofForm datum)) w (LowersExpr w next) := by
  cases items with
  | nil => exact follows_failure _ _
  | cons datum rest =>
    refine (follows_quotedValue datum w).bind (g := fun d => some (Expr.literal d)) ?_
    rintro d v w₁ hx₁ ⟨hd, hl⟩
    refine follows_emit (.constant v next) nofun fun start w₂ hx₂ h => ?_
    exact hl.lowers hx₁ h hx₂ rfl nofun rfl fun hn => .literal (hd.mono hx₂.symbols) hn

end Expressions

/-- A call has been bracketed after its instructions were written. -/
private theorem Laid.bracket {w w₁ w₂ : Workspace} {names : List String} {safe done : Prop}
    {inner next start : NodeId} {e : Expr} (h : Laid w w₁ names safe done) (hx₁ : w.Extends w₁)
    (hb : Laid w₁ w₂ [] (inner < w₂.code.size ∧ next < w₂.code.size)
      (w₂.code.Brackets inner next start ∧ (inner < w₁.code.size → start < w₂.code.size)))
    (hx₂ : w₁.Extends w₂) (hnames : names = e.defined) (hlt : done → inner < w₁.code.size)
    (hsafe : done → e.isProper = true → safe)
    (hc : done → w₂.code.Brackets inner next start → Compiled w₂.symbols w₂.code e next start) :
    LowersExpr w next e start w₂ := by
  refine (h.trans hb hx₂).imp (by rw [List.append_nil, hnames]) ?_ ?_
  · rintro ⟨hd, hbr, hstart⟩
    exact ⟨hc hd hbr, fun _ => hstart (hlt hd)⟩
  · rintro ⟨hd, hbr, hstart⟩ ⟨hnext, hproper⟩
    have hle₁ := hx₁.code.size_le
    have hle₂ := hx₂.code.size_le
    exact ⟨hsafe hd hproper, Nat.lt_of_lt_of_le (hlt hd) hle₂,
      Nat.lt_of_lt_of_le hnext (Nat.le_trans hle₁ hle₂)⟩

private theorem follows_call {head : Form} {items : List Form}
    (hhead : ∀ next w, w.Ready →
      Follows (form head next) (Expr.ofForm? head) w (LowersExpr w next))
    (hitems : ∀ next w, w.Ready →
      Follows (arguments items next) (Expr.ofForms? items) w (LowersArgs w next))
    (next : NodeId) {w : Workspace} (hw : w.Ready) :
    Follows
      (do
        let call ← emit .apply
        bracket (← arguments items (← form head call)) next)
      (do
        let operator ← Expr.ofForm? head
        let args ← Expr.ofForms? items
        return .call operator args) w (LowersExpr w next) := by
  refine .emit .apply nofun fun call w₁ hx₁ hl₁ => ?_
  refine (hhead call w₁ (hw.mono hx₁)).bind fun e callee w₂ hx₂ hl₂ => ?_
  refine (hitems callee w₂ (hw.mono (hx₁.trans hx₂))).bind fun es inner w₃ hx₃ hl₃ => ?_
  refine (follows_bracket inner next w₃).conclude fun start w₄ hx₄ hl₄ => ?_
  have hl := (hl₁.trans hl₂ hx₂).trans hl₃ hx₃
  refine hl.bracket (hx₁.trans (hx₂.trans hx₃)) hl₄ hx₄ (by simp [Expr.defined]) ?_ ?_ ?_
  · rintro ⟨⟨⟨-, hcall⟩, -, hcallee⟩, -, hinner⟩
    exact hinner (hcallee hcall)
  · rintro ⟨⟨⟨-, hcall⟩, -, hcallee⟩, -⟩ hproper
    rw [Expr.isProper, Bool.and_eq_true] at hproper
    exact ⟨⟨⟨nofun, nofun⟩, hcall, hproper.1⟩, hcallee hcall, hproper.2⟩
  · rintro ⟨⟨⟨hn, -⟩, he, -⟩, hes, -⟩ hb
    have hx₃₄ := hx₃.trans hx₄
    exact .call ((hx₂.trans hx₃₄).code.node? hn) (he.mono hx₃₄.symbols hx₃₄.code)
      (hes.mono hx₄.symbols hx₄.code) hb

private theorem follows_callCc {items : List Form}
    (hfirst : ∀ next w, w.Ready →
      Follows (first items next) (Expr.ofFirst? items) w (LowersExpr w next))
    (next : NodeId) {w : Workspace} (hw : w.Ready) :
    Follows
      (do
        let call ← emit .apply
        let callee ← first items call
        let arg ← emit (.argument callee)
        bracket (← emit (.conti arg)) next)
      (do
        let e ← Expr.ofFirst? items
        return .callCc e) w (LowersExpr w next) := by
  refine .emit .apply nofun fun call w₁ hx₁ hl₁ => ?_
  refine (hfirst call w₁ (hw.mono hx₁)).bind fun e callee w₂ hx₂ hl₂ => ?_
  refine .emit (.argument callee) nofun fun arg w₃ hx₃ hl₃ => ?_
  refine .emit (.conti arg) nofun fun inner w₄ hx₄ hl₄ => ?_
  refine (follows_bracket inner next w₄).conclude fun start w₅ hx₅ hl₅ => ?_
  have hl := ((hl₁.trans hl₂ hx₂).trans hl₃ hx₃).trans hl₄ hx₄
  refine hl.bracket (hx₁.trans (hx₂.trans (hx₃.trans hx₄))) hl₅ hx₅ (by simp [Expr.defined]) ?_ ?_ ?_
  · rintro ⟨-, -, hinner⟩
    exact hinner
  · rintro ⟨⟨⟨⟨-, hcall⟩, -, hcallee⟩, -, harg⟩, -⟩ hproper
    have hlt := Nat.lt_of_lt_of_le (hcallee hcall) hx₃.code.size_le
    exact ⟨⟨⟨⟨nofun, nofun⟩, hcall, hproper⟩, carries_single rfl nofun hlt⟩,
      carries_single rfl nofun (Nat.lt_of_lt_of_le harg hx₄.code.size_le)⟩
  · rintro ⟨⟨⟨⟨hn, -⟩, he, -⟩, harg, -⟩, hinner, -⟩ hb
    have hx₄₅ := hx₄.trans hx₅
    have hx₃₅ := hx₃.trans hx₄₅
    exact .callCc ((hx₂.trans hx₃₅).code.node? hn) (he.mono hx₃₅.symbols hx₃₅.code)
      (hx₄₅.code.node? harg) (hx₅.code.node? hinner) hb

mutual

theorem follows_form (f : Form) (next : NodeId) (w : Workspace) (hw : w.Ready) :
    Follows (form f next) (Expr.ofForm? f) w (LowersExpr w next) := by
  match f with
  | .int n =>
    rw [form, Expr.ofForm?]
    exact follows_literal rfl
  | .atom name =>
    rw [form, Expr.ofForm?, Expr.ofAtom]
    split
    · exact follows_literal rfl
    · split
      · exact follows_literal rfl
      · exact follows_variable
  | .list items =>
    rw [form, Expr.ofForm?]
    exact follows_compound items next w hw

theorem follows_compound (items : List Form) (next : NodeId) (w : Workspace) (hw : w.Ready) :
    Follows (compound items next) (Expr.ofItems? items) w (LowersExpr w next) := by
  match items with
  | [] =>
    rw [compound, Expr.ofItems?]
    exact follows_literal trivial
  | head :: items =>
    rw [compound, Expr.ofItems?]
    refine .after (run_keyword? hw head) (.refl w) ?_
    have hcall := follows_call (follows_form head) (follows_arguments items) next hw
    rcases head.keyword? with _ | k
    · exact hcall
    · cases k with
      | quote => exact follows_quotation items
      | lambda => exact follows_abstraction items next w hw
      | conditional => exact follows_conditional items next w hw
      | assign => exact follows_assignment false items next w hw
      | define => exact follows_assignment true items next w hw
      | sequence =>
        refine (follows_sequence items next w hw).imp fun es start w' _ hl => ?_
        refine Laid.imp hl rfl (fun ⟨hes, hlt⟩ => ⟨.sequence hes, hlt⟩) ?_
        rintro - ⟨hnext, hproper⟩
        rw [Expr.isProper, Bool.and_eq_true] at hproper
        exact ⟨hnext, hproper.2⟩
      | callCc => exact follows_callCc (follows_first items) next hw
      | defineSyntax => exact hcall
      | ellipsis => exact hcall
      | underscore => exact hcall
      | invoke => exact hcall

theorem follows_abstraction (items : List Form) (next : NodeId) (w : Workspace) (hw : w.Ready) :
    Follows (abstraction items next) (Expr.ofAbstraction? items) w (LowersExpr w next) := by
  match items with
  | .list params :: body =>
    rw [abstraction, Expr.ofAbstraction?]
    refine (follows_parameters params w).bind fun names ids w₁ hx₁ ⟨hids, hl₁⟩ => ?_
    refine .emit .ret nofun fun exit w₂ hx₂ hl₂ => ?_
    refine (follows_sequence body exit w₂ (hw.mono (hx₁.trans hx₂))).bind
      fun es entry w₃ hx₃ hl₃ => ?_
    have hw₃ := hw.mono (hx₁.trans (hx₂.trans hx₃))
    refine follows_emitClose hw₃ fun f start w₄ hx₄ hl₄ => ?_
    have hx₂₄ := hx₂.trans (hx₃.trans hx₄)
    refine (((hl₁.trans hl₂ hx₂).trans hl₃ hx₃).trans hl₄ hx₄).imp (by simp [Expr.defined]) ?_ ?_
    · rintro ⟨⟨⟨-, hret, -⟩, hbody, -⟩, hn, hlt, hf⟩
      exact ⟨.lambda (hids.mono hx₂₄.symbols) hf ((hx₃.trans hx₄).code.node? hret)
        (hbody.mono hx₄.symbols hx₄.code) hn, fun _ => hlt⟩
    · rintro ⟨⟨⟨-, -, hexit⟩, -, hentry⟩, -, -, hf⟩ ⟨hnext, hproper⟩
      simp only [Expr.isProper, Bool.and_eq_true, decide_eq_true_eq] at hproper
      obtain ⟨⟨hnodup, -⟩, hbody⟩ := hproper
      refine ⟨⟨⟨trivial, nofun, nofun⟩, hexit, hbody⟩, ?_, ?_⟩
      · simp only [Node.successors, List.mem_cons, List.not_mem_nil, or_false]
        rintro t (rfl | rfl)
        · exact Nat.lt_of_lt_of_le (hentry hexit) hx₄.code.size_le
        · exact Nat.lt_of_lt_of_le hnext (hx₁.trans hx₂₄).code.size_le
      · rintro _ _ _ ⟨⟩
        exact ⟨ids, hf, hids.nodup hnodup⟩
  | [] => exact follows_failure _ _
  | .int n :: _ => exact follows_failure _ _
  | .atom name :: _ => exact follows_failure _ _

theorem follows_conditional (items : List Form) (next : NodeId) (w : Workspace) (hw : w.Ready) :
    Follows (conditional items next) (Expr.ofConditional? items) w (LowersExpr w next) := by
  match items with
  | condition :: yes :: more =>
    rw [conditional, Expr.ofConditional?]
    refine (follows_form yes next w hw).bind fun yesE onTrue w₁ hx₁ hl₁ => ?_
    refine (follows_alternative more next w₁ (hw.mono hx₁)).bind fun noE onFalse w₂ hx₂ hl₂ => ?_
    refine .emit (.test onTrue onFalse) nofun fun test w₃ hx₃ hl₃ => ?_
    have hw₃ := hw.mono (hx₁.trans (hx₂.trans hx₃))
    refine (follows_form condition test w₃ hw₃).imp fun conditionE start w₄ hx₄ hl₄ => ?_
    refine (((hl₁.trans hl₂ hx₂).trans hl₃ hx₃).trans hl₄ hx₄).imp (by simp [Expr.defined]) ?_ ?_
    · rintro ⟨⟨⟨⟨hyes, -⟩, hno, -⟩, hn, htest⟩, hcondition, hstart⟩
      have hx₃₄ := hx₃.trans hx₄
      have hx := hx₂.trans hx₃₄
      exact ⟨.conditional (hyes.mono hx.symbols hx.code) (hno.mono hx₃₄.symbols hx₃₄.code)
        (hx₄.code.node? hn) hcondition, fun _ => hstart htest⟩
    · rintro ⟨⟨⟨⟨-, hyes⟩, -, hno⟩, -, htest⟩, -⟩ ⟨hnext, hproper⟩
      simp only [Expr.isProper, Bool.and_eq_true] at hproper
      obtain ⟨⟨hpc, hpy⟩, hpn⟩ := hproper
      have hnext₁ := Nat.lt_of_lt_of_le hnext hx₁.code.size_le
      refine ⟨⟨⟨⟨hnext, hpy⟩, hnext₁, hpn⟩, ?_, nofun⟩, htest, hpc⟩
      simp only [Node.successors, List.mem_cons, List.not_mem_nil, or_false]
      rintro t (rfl | rfl)
      · exact Nat.lt_of_lt_of_le (hyes hnext) (hx₂.trans hx₃).code.size_le
      · exact Nat.lt_of_lt_of_le (hno hnext₁) hx₃.code.size_le
  | [] => exact follows_failure _ _
  | [_] => exact follows_failure _ _

theorem follows_assignment (declaring : Bool) (items : List Form) (next : NodeId) (w : Workspace)
    (hw : w.Ready) :
    Follows (assignment declaring items next)
      (Expr.ofAssignment? (if declaring then .define else .assign) items) w (LowersExpr w next) := by
  match items with
  | .atom name :: more =>
    rw [assignment, Expr.ofAssignment?]
    refine (follows_target declaring name w).bind (g := fun _ => _) ?_
    rintro - id w₁ hx₁ ⟨hid, hl₁⟩
    refine .emit (.assign id next) nofun fun store w₂ hx₂ hl₂ => ?_
    refine (follows_first more store w₂ (hw.mono (hx₁.trans hx₂))).imp fun e start w₃ hx₃ hl₃ => ?_
    have hl := (hl₁.trans hl₂ hx₂).trans hl₃ hx₃
    have hid₃ := (hx₂.trans hx₃).symbols.find? hid
    cases declaring with
    | false =>
      refine hl.imp rfl ?_ ?_
      · rintro ⟨⟨-, hn, hstore⟩, he, hstart⟩
        exact ⟨.assign hid₃ (hx₃.code.node? hn) he, fun _ => hstart hstore⟩
      · rintro ⟨⟨-, -, hstore⟩, -⟩ ⟨hnext, hproper⟩
        have hlt := Nat.lt_of_lt_of_le hnext (hx₁.trans hx₂).code.size_le
        exact ⟨⟨trivial, carries_single rfl nofun hlt⟩, hstore, hproper⟩
    | true =>
      refine hl.imp rfl ?_ ?_
      · rintro ⟨⟨-, hn, hstore⟩, he, hstart⟩
        exact ⟨.define hid₃ (hx₃.code.node? hn) he, fun _ => hstart hstore⟩
      · rintro ⟨⟨-, -, hstore⟩, -⟩ ⟨hnext, hproper⟩
        have hlt := Nat.lt_of_lt_of_le hnext (hx₁.trans hx₂).code.size_le
        exact ⟨⟨trivial, carries_single rfl nofun hlt⟩, hstore, hproper⟩
  | [] => exact follows_failure _ _
  | .int n :: _ => exact follows_failure _ _
  | .list items :: _ => exact follows_failure _ _

theorem follows_sequence (items : List Form) (next : NodeId) (w : Workspace) (hw : w.Ready) :
    Follows (sequence items next) (Expr.ofForms? items) w (LowersAll w next) := by
  match items with
  | [] =>
    rw [sequence, Expr.ofForms?]
    exact follows_pure ((laid_of_same rfl rfl).imp rfl (fun _ => ⟨.nil, id⟩) fun _ _ => trivial)
  | f :: rest =>
    rw [sequence, Expr.ofForms?]
    refine (follows_sequence rest next w hw).bind fun es after w₁ hx₁ hl₁ => ?_
    refine (follows_form f after w₁ (hw.mono hx₁)).imp fun e start w₂ hx₂ hl₂ => ?_
    refine (hl₁.trans hl₂ hx₂).imp rfl ?_ ?_
    · rintro ⟨⟨hrest, hafter⟩, hf, hstart⟩
      exact ⟨.cons (hrest.mono hx₂.symbols hx₂.code) hf, fun hnext => hstart (hafter hnext)⟩
    · rintro ⟨⟨-, hafter⟩, -⟩ ⟨hnext, hproper⟩
      rw [Expr.areProper, Bool.and_eq_true] at hproper
      exact ⟨⟨hnext, hproper.2⟩, hafter hnext, hproper.1⟩

theorem follows_arguments (items : List Form) (next : NodeId) (w : Workspace) (hw : w.Ready) :
    Follows (arguments items next) (Expr.ofForms? items) w (LowersArgs w next) := by
  match items with
  | [] =>
    rw [arguments, Expr.ofForms?]
    exact follows_pure ((laid_of_same rfl rfl).imp rfl (fun _ => ⟨.nil, id⟩) fun _ _ => trivial)
  | f :: rest =>
    rw [arguments, Expr.ofForms?]
    refine (follows_arguments rest next w hw).bind fun es after w₁ hx₁ hl₁ => ?_
    refine .emit (.argument after) nofun fun arg w₂ hx₂ hl₂ => ?_
    refine (follows_form f arg w₂ (hw.mono (hx₁.trans hx₂))).imp fun e start w₃ hx₃ hl₃ => ?_
    refine ((hl₁.trans hl₂ hx₂).trans hl₃ hx₃).imp (by simp [Expr.definedAll]) ?_ ?_
    · rintro ⟨⟨⟨hrest, -⟩, hn, harg⟩, hf, hstart⟩
      have hx := hx₂.trans hx₃
      exact ⟨.cons (hrest.mono hx.symbols hx.code) (hx₃.code.node? hn) hf, fun _ => hstart harg⟩
    · rintro ⟨⟨⟨-, hafter⟩, -, harg⟩, -⟩ ⟨hnext, hproper⟩
      rw [Expr.areProper, Bool.and_eq_true] at hproper
      have hlt := Nat.lt_of_lt_of_le (hafter hnext) hx₂.code.size_le
      exact ⟨⟨⟨hnext, hproper.2⟩, carries_single rfl nofun hlt⟩, harg, hproper.1⟩

theorem follows_first (items : List Form) (next : NodeId) (w : Workspace) (hw : w.Ready) :
    Follows (first items next) (Expr.ofFirst? items) w (LowersExpr w next) := by
  match items with
  | [] => exact follows_failure _ _
  | f :: _ =>
    rw [first, Expr.ofFirst?]
    exact follows_form f next w hw

theorem follows_alternative (items : List Form) (next : NodeId) (w : Workspace) (hw : w.Ready) :
    Follows (alternative items next) (Expr.ofAlternative? items) w (LowersExpr w next) := by
  match items with
  | [] =>
    rw [alternative, Expr.ofAlternative?]
    exact follows_literal trivial
  | f :: _ =>
    rw [alternative, Expr.ofAlternative?]
    exact follows_form f next w hw

end

/-! ## Programs -/

/-- From `entry` on there is code that evaluates the expressions and halts. -/
def Implements (t : SymbolTable) (c : Code) (es : List Expr) (entry : NodeId) : Prop :=
  ∃ halt, c.node? halt = some .halt ∧ CompiledAll t c es halt entry

/-- What lowering a whole text leaves if ids fit in a word. -/
structure Completes (w : Workspace) (forms : List Form) (entry : Option NodeId)
    (w' : Workspace) : Prop where
  sound : ∀ start, entry = some start → ∃ es, Expr.ofForms? forms = some es ∧
    Implements w'.symbols w'.code es start ∧ w.Declares (Expr.definedAll es) w' ∧ w'.code.Valid
  complete : ∀ es, Expr.ofForms? forms = some es → Expr.areProper es = true → w.code.Valid →
    ∃ start, entry = some start

theorem run_program {w : Workspace} (hw : w.Ready) (forms : List Form) :
    ∃ entry w', (program forms).run w = (entry, w') ∧ w.Extends w' ∧
      (w'.code.size < wordLimit → Completes w forms entry w') := by
  obtain ⟨halt, w₁, hrun₁, hx₁, hl₁⟩ := emit_adds .halt nofun w
  have hseq := follows_sequence forms halt w₁ (hw.mono hx₁)
  unfold program
  rw [run_bind_of_some hrun₁]
  cases hes : Expr.ofForms? forms with
  | none =>
    rw [hes] at hseq
    obtain ⟨w₂, hrun₂, hx₂⟩ := hseq
    rw [run_bind_of_none hrun₂]
    exact ⟨none, w₂, rfl, hx₁.trans hx₂, fun _ => ⟨nofun, fun es h => by rw [hes] at h; cases h⟩⟩
  | some es =>
    rw [hes] at hseq
    obtain ⟨start, w₂, hrun₂, hx₂, hl₂⟩ := hseq
    have hl := hl₁.trans hl₂ hx₂
    have hget : (get : Lowering Workspace).run w₂ = (some w₂, w₂) := rfl
    rw [run_bind_of_some hrun₂, run_bind_of_some hget]
    cases hd : w₂.code.defect? with
    | some defect =>
      refine ⟨none, w₂, rfl, hx₁.trans hx₂, fun hword => ⟨nofun, ?_⟩⟩
      intro es' hes' hproper hvalid
      rw [hes] at hes'
      cases hes'
      obtain ⟨⟨-, hhalt⟩, -⟩ := hl.done hword
      have hvalid₂ := hl.valid hword hvalid ⟨⟨nofun, nofun⟩, hhalt, hproper⟩
      rw [(Code.defect?_eq_none_iff _).mpr hvalid₂] at hd
      cases hd
    | none =>
      refine ⟨some start, w₂, rfl, hx₁.trans hx₂, fun hword => ⟨?_, fun _ _ _ _ => ⟨start, rfl⟩⟩⟩
      rintro _ ⟨⟩
      obtain ⟨⟨hhalt, -⟩, hcompiled, -⟩ := hl.done hword
      exact ⟨es, hes, ⟨halt, hx₂.code.node? hhalt, hcompiled⟩, hl.declares,
        (Code.defect?_eq_none_iff _).mp hd⟩

end Lowering

end ClosureMachine
