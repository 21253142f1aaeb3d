import ClosureMachine.Proofs.Lowering.Tidy

/-!
Lowering writes back to front. Every instruction that it adds leads to earlier ones only, and every
procedure that it makes has a parameter list that is registered and free of repetitions, provided
that the forms repeat no parameter (`Form.distinctParameters`) and that ids still fit in a word
(`Code.Roomy`). This holds of what has been written, whether the work succeeds or stops on the
way: `Lays` says so of a piece of lowering, with one lemma for each function (`lays_form`).
-/

namespace ClosureMachine

/-! ## Forms that repeat no parameter -/

namespace Form

mutual

/-- No procedure in the form has a parameter twice. What is quoted is not looked at. -/
def distinctParameters : Form → Bool
  | .int _ => true
  | .atom _ => true
  | .list items => distinctInItems items

def distinctInItems : List Form → Bool
  | [] => true
  | head :: items =>
    match head.keyword? with
    | some .quote => true
    | some .lambda => distinctInAbstraction items
    | _ => distinctParameters head && distinctInAll items

def distinctInAbstraction : List Form → Bool
  | .list params :: body => (names? params).all (fun names => names.Nodup) && distinctInAll body
  | _ => true

def distinctInAll : List Form → Bool
  | [] => true
  | f :: fs => distinctParameters f && distinctInAll fs

end

/-- No procedure in the text has a parameter twice. A text that cannot be read has none. -/
def distinctInText (source : String) : Bool := (readAll? source).all distinctInAll

theorem distinctInAll_cons {f : Form} {fs : List Form} (h : distinctInAll (f :: fs) = true) :
    f.distinctParameters = true ∧ distinctInAll fs = true := by
  rwa [distinctInAll, Bool.and_eq_true] at h

end Form

/-! ## Instructions that lead to earlier ones -/

namespace Code

/-- Every instruction leads to earlier ones only. -/
def Descending (c : Code) : Prop := ∀ id n, c.node? id = some n → ∀ t ∈ n.successors, t < id

/-- An instruction that may stand at `id`: it leads to earlier ones, and its parameter list is
registered and free of repetitions. -/
structure Settles (c : Code) (id : NodeId) (n : Node) : Prop where
  targets : ∀ t ∈ n.successors, t < id
  formals : ∀ f body next, n = .close f body next →
    ∃ names, c.formals? f = some names ∧ names.Nodup

theorem Settles.mono {c c' : Code} (hg : c.Grows c') {id : NodeId} {n : Node}
    (h : c.Settles id n) : c'.Settles id n where
  targets := h.targets
  formals f body next hn := by
    obtain ⟨names, hf, hnodup⟩ := h.formals f body next hn
    exact ⟨names, hg.formals? hf, hnodup⟩

/-- Code that is valid and descends is code whose every instruction may stand where it does. -/
theorem settles_iff (c : Code) :
    (∀ id n, c.node? id = some n → c.Settles id n) ↔ c.Valid ∧ c.Descending := by
  constructor
  · intro h
    constructor
    · intro id n hn
      refine ⟨fun t ht => ?_, (h id n hn).formals⟩
      exact Nat.lt_trans ((h id n hn).targets t ht) (node?_lt hn)
    · exact fun id n hn => (h id n hn).targets
  · rintro ⟨hv, hd⟩ id n hn
    exact ⟨hd id n hn, (hv id n hn).formals⟩

theorem Grows.node?_of_lt {c c' : Code} (hg : c.Grows c') {id : NodeId} {n : Node}
    (hlt : id < c.size) (hn : c'.node? id = some n) : c.node? id = some n := by
  obtain ⟨n', hn'⟩ := exists_node_of_lt hlt
  rw [hn', ← hg.node? hn', hn]

/-- Ids fit in a word. -/
def Roomy (c : Code) : Prop := c.size ≤ wordLimit ∧ c.formals.size ≤ wordLimit

theorem Roomy.anti {c c' : Code} (h : c'.Roomy) (hg : c.Grows c') : c.Roomy := by
  have hformals : c.formals.size ≤ c'.formals.size := by simpa using hg.formals.length_le
  exact ⟨Nat.le_trans hg.size_le h.1, Nat.le_trans hformals h.2⟩

/-- `id` is the id of an instruction, unless ids have run over. -/
def Holds (c : Code) (id : NodeId) : Prop := c.Roomy → id < c.size

theorem Holds.mono {c c' : Code} {id : NodeId} (h : c.Holds id) (hg : c.Grows c') : c'.Holds id :=
  fun hr => Nat.lt_of_lt_of_le (h (hr.anti hg)) hg.size_le

/-- What has been added may stand where it does, unless ids have run over. -/
def Descends (c c' : Code) : Prop :=
  c'.Roomy → ∀ id n, c.size ≤ id → c'.node? id = some n → c'.Settles id n

theorem Descends.refl (c : Code) : c.Descends c :=
  fun _ _ _ hle hn => absurd (node?_lt hn) (Nat.not_lt.mpr hle)

theorem Descends.trans {c c' c'' : Code} (h : c.Descends c') (h' : c'.Descends c'')
    (hg : c'.Grows c'') : c.Descends c'' := by
  intro hr id n hle hn
  rcases Nat.lt_or_ge id c'.size with hlt | hge
  · exact (h (hr.anti hg) id n hle (hg.node?_of_lt hlt hn)).mono hg
  · exact h' hr id n hge hn

/-- One instruction has been added. -/
theorem descends_push {c c' : Code} {n : Node} (hp : c'.nodes = c.nodes.push n)
    (hs : c'.Roomy → c'.Settles c.size n) : c.Descends c' := by
  intro hr id n' hle hn
  rw [node?, hp, Array.getElem?_push] at hn
  split at hn
  · next hid =>
    cases hn
    exact hid ▸ hs hr
  · exact absurd (node?_lt hn) (Nat.not_lt.mpr hle)

/-- Where everything may stand where it does, everything still may. -/
theorem Descends.settles {c c' : Code} (h : c.Descends c') (hg : c.Grows c') (hr : c'.Roomy)
    (hc : ∀ id n, c.node? id = some n → c.Settles id n) :
    ∀ id n, c'.node? id = some n → c'.Settles id n := by
  intro id n hn
  rcases Nat.lt_or_ge id c.size with hlt | hge
  · exact (hc id n (hg.node?_of_lt hlt hn)).mono hg
  · exact h hr id n hge hn

end Code

namespace Lowering

variable {α γ : Type} {w : Workspace}

/-- Whether the work succeeds or stops, what it has added may stand where it does; and if it
succeeds, then `R` holds. -/
def Lays (x : Lowering α) (w : Workspace) (R : α → Workspace → Prop) : Prop :=
  ∃ o w', x.run w = (o, w') ∧ w.Extends w' ∧ w.code.Descends w'.code ∧ ∀ a, o = some a → R a w'

/-- The start of some code has been found. -/
abbrev LaysCode (x : Lowering NodeId) (w : Workspace) : Prop :=
  Lays x w fun id w' => w'.code.Holds id

theorem Lays.bind {x : Lowering α} {R : α → Workspace → Prop} {S : γ → Workspace → Prop}
    (h : Lays x w R) {f : α → Lowering γ}
    (hf : ∀ a w', w.Extends w' → R a w' → Lays (f a) w' S) : Lays (x >>= f) w S := by
  obtain ⟨o, w₁, hrun, hx, hd, hr⟩ := h
  cases o with
  | none => exact ⟨none, w₁, run_bind_of_none hrun, hx, hd, nofun⟩
  | some a =>
    obtain ⟨o, w₂, hrun₂, hx₂, hd₂, hs⟩ := hf a w₁ hx (hr a rfl)
    exact ⟨o, w₂, (run_bind_of_some hrun).trans hrun₂, hx.trans hx₂, hd.trans hd₂ hx₂.code, hs⟩

theorem lays_failure (R : α → Workspace → Prop) : Lays (failure : Lowering α) w R :=
  ⟨none, w, rfl, .refl w, .refl _, nofun⟩

/-- Work that adds no instruction. -/
theorem lays_of_run {x : Lowering α} {R : α → Workspace → Prop} {a : α} {w' : Workspace}
    (hrun : x.run w = (some a, w')) (hx : w.Extends w') (hc : w'.code = w.code) (h : R a w') :
    Lays x w R := by
  refine ⟨some a, w', hrun, hx, hc ▸ .refl _, ?_⟩
  rintro _ ⟨⟩
  exact h

theorem lays_pure {R : α → Workspace → Prop} {a : α} (h : R a w) : Lays (pure a) w R :=
  lays_of_run rfl (.refl w) rfl h

/-! ## Instructions -/

theorem lays_emit (n : Node) (hs : n.isSimple = true) (ht : ∀ t ∈ n.successors, w.code.Holds t) :
    LaysCode (emit n) w := by
  have hnu : ∀ stack var, n ≠ .nuate stack var := by
    rintro stack var rfl
    cases hs
  obtain ⟨id, w', hrun, hx, -⟩ := emit_adds n hnu w
  cases (run_emit n w).symm.trans hrun
  refine ⟨_, _, hrun, hx, Code.descends_push rfl fun hr => ⟨fun t hmem => ?_, ?_⟩, ?_⟩
  · exact ht t hmem (hr.anti hx.code)
  · rintro f body next rfl
    cases hs
  · rintro _ ⟨⟩ ⟨hsize, -⟩
    rw [Code.size_append] at hsize ⊢
    rw [Code.append_fst hsize]
    exact Nat.lt_succ_self _

theorem holds_single {n : Node} {next : NodeId} (hs : n.successors = [next])
    (hn : w.code.Holds next) : ∀ t ∈ n.successors, w.code.Holds t := by
  intro t ht
  rw [hs] at ht
  exact List.mem_singleton.mp ht ▸ hn

theorem holds_pair {n : Node} {a b : NodeId} (hs : n.successors = [a, b]) (ha : w.code.Holds a)
    (hb : w.code.Holds b) : ∀ t ∈ n.successors, w.code.Holds t := by
  intro t ht
  rw [hs, List.mem_cons, List.mem_singleton] at ht
  rcases ht with rfl | rfl
  · exact ha
  · exact hb

theorem lays_emitClose {names : List SymbolId} {entry next : NodeId} (hnames : names.Nodup)
    (hentry : w.code.Holds entry) (hnext : w.code.Holds next) :
    LaysCode (emitClose names entry next) w := by
  have hx := extends_addClose names entry next w
  have hpush := @Code.descends_push w.code (w.code.addClose names entry next).2
    (.close (w.code.formals.size % wordLimit) entry next) rfl
  refine ⟨_, _, run_emitClose names entry next w, hx, hpush fun hr => ?_, ?_⟩
  · have hroom := hr.anti hx.code
    refine ⟨fun t ht => holds_pair rfl hentry hnext t ht hroom, ?_⟩
    rintro _ _ _ ⟨⟩
    have hlt : w.code.formals.size < wordLimit := by
      have hsize := hr.2
      simp only [Code.addClose, Code.addFormals, Code.append, Array.size_push] at hsize
      exact hsize
    rw [Nat.mod_eq_of_lt hlt]
    exact ⟨names, Array.getElem?_push_size, hnames⟩
  · rintro _ ⟨⟩ ⟨hsize, -⟩
    rw [Code.size_addClose] at hsize ⊢
    have hid : (w.code.addClose names entry next).1 = w.code.size := Nat.mod_eq_of_lt hsize
    rw [hid]
    exact Nat.lt_succ_self _

theorem lays_bracket {inner next : NodeId} (hi : w.code.Holds inner) (hn : w.code.Holds next) :
    LaysCode (bracket inner next) w := by
  unfold bracket
  have hget : Lays (get : Lowering Workspace) w fun _ w' => w = w' :=
    lays_of_run rfl (.refl w) rfl rfl
  refine hget.bind ?_
  rintro a _ - rfl
  split
  · exact lays_pure hi
  · exact lays_emit (.frame next inner) rfl (holds_pair rfl hi hn)

/-! ## Names -/

theorem lays_symbol (name : String) (w : Workspace) :
    Lays (symbol name) w fun id w' => w'.symbols.find? name = some id :=
  lays_of_run (run_symbol name w) (extends_symbol name w) rfl (w.symbols.find?_intern name)

theorem lays_parameters (params : List Form) (w : Workspace) :
    Lays (parameters params) w fun ids w' =>
      ∃ names, Form.names? params = some names ∧ w'.symbols.Spells names ids := by
  induction params generalizing w with
  | nil => exact lays_pure ⟨[], rfl, rfl⟩
  | cons f rest ih =>
    cases f with
    | int n => exact lays_failure _
    | list items => exact lays_failure _
    | atom name =>
      rw [parameters]
      refine (lays_symbol name w).bind fun id w₁ _ hid => ?_
      refine (ih w₁).bind ?_
      rintro ids w₂ hx₂ ⟨names, hnames, hs⟩
      refine lays_pure ⟨name :: names, ?_, hs.cons (hx₂.symbols.find? hid)⟩
      rw [Form.names?, hnames]
      rfl

theorem lays_target (declaring : Bool) (name : String) (w : Workspace) :
    Lays (target declaring name) w fun _ _ => True := by
  obtain ⟨id, w', hrun, hx, -⟩ := follows_target declaring name w
  have hc := code_target declaring name w
  rw [hrun] at hc
  exact lays_of_run hrun hx hc trivial

theorem lays_quotation {next : NodeId} (items : List Form) (hn : w.code.Holds next) :
    LaysCode (quotation items next) w := by
  cases items with
  | nil => exact lays_failure _
  | cons datum rest =>
    have hvalue : Lays (quotedValue datum) w fun _ _ => True := by
      cases datum with
      | int n => exact lays_pure trivial
      | list items => exact lays_pure trivial
      | atom name => exact (lays_symbol name w).bind fun _ _ _ _ => lays_pure trivial
    refine hvalue.bind fun v w₁ hx₁ _ => ?_
    exact lays_emit (.constant v next) rfl (holds_single rfl (hn.mono hx₁.code))

/-! ## Forms -/

section Calls

variable {next : NodeId}

private theorem lays_call {head : Form} {items : List Form}
    (hhead : ∀ next w, w.keywords.Fits w.symbols → w.code.Holds next → LaysCode (form head next) w)
    (hitems : ∀ next w, w.keywords.Fits w.symbols → w.code.Holds next →
      LaysCode (arguments items next) w)
    (hw : w.keywords.Fits w.symbols) (hn : w.code.Holds next) :
    LaysCode
      (do
        let call ← emit .apply
        bracket (← arguments items (← form head call)) next) w := by
  refine (lays_emit .apply rfl nofun).bind fun call w₁ hx₁ hcall => ?_
  refine (hhead call w₁ (hx₁.fits hw) hcall).bind fun callee w₂ hx₂ hcallee => ?_
  have hx₁₂ := hx₁.trans hx₂
  refine (hitems callee w₂ (hx₁₂.fits hw) hcallee).bind fun inner w₃ hx₃ hinner => ?_
  exact lays_bracket hinner (hn.mono (hx₁₂.trans hx₃).code)

private theorem lays_callCc {items : List Form}
    (hfirst : ∀ next w, w.keywords.Fits w.symbols → w.code.Holds next →
      LaysCode (first items next) w)
    (hw : w.keywords.Fits w.symbols) (hn : w.code.Holds next) :
    LaysCode
      (do
        let call ← emit .apply
        let callee ← first items call
        let arg ← emit (.argument callee)
        bracket (← emit (.conti arg)) next) w := by
  refine (lays_emit .apply rfl nofun).bind fun call w₁ hx₁ hcall => ?_
  refine (hfirst call w₁ (hx₁.fits hw) hcall).bind fun callee w₂ hx₂ hcallee => ?_
  refine (lays_emit (.argument callee) rfl (holds_single rfl hcallee)).bind ?_
  intro arg w₃ hx₃ harg
  refine (lays_emit (.conti arg) rfl (holds_single rfl harg)).bind fun inner w₄ hx₄ hinner => ?_
  exact lays_bracket hinner (hn.mono (hx₁.trans (hx₂.trans (hx₃.trans hx₄))).code)

end Calls

mutual

/-- A form that repeats no parameter is lowered to code that leads back. -/
theorem lays_form (f : Form) (hf : f.distinctParameters = true) (next : NodeId) (w : Workspace)
    (hw : w.keywords.Fits w.symbols) (hn : w.code.Holds next) : LaysCode (form f next) w := by
  match f with
  | .int n =>
    rw [form]
    exact lays_emit (.constant (.int n) next) rfl (holds_single rfl hn)
  | .atom name =>
    rw [form]
    split
    · exact lays_emit (.constant (.bool true) next) rfl (holds_single rfl hn)
    · split
      · exact lays_emit (.constant (.bool false) next) rfl (holds_single rfl hn)
      · refine (lays_symbol name w).bind fun id w₁ hx₁ _ => ?_
        exact lays_emit (.refer id next) rfl (holds_single rfl (hn.mono hx₁.code))
  | .list items =>
    rw [form]
    rw [Form.distinctParameters] at hf
    exact lays_compound items hf next w hw hn

theorem lays_compound (items : List Form) (hf : Form.distinctInItems items = true) (next : NodeId)
    (w : Workspace) (hw : w.keywords.Fits w.symbols) (hn : w.code.Holds next) :
    LaysCode (compound items next) w := by
  match items with
  | [] =>
    rw [compound]
    exact lays_emit (.constant .nil next) rfl (holds_single rfl hn)
  | head :: items =>
    rw [compound]
    have hkeyword : Lays (keyword? head) w fun k w' => head.keyword? = k ∧ w = w' :=
      lays_of_run (run_keyword?_of_fits hw head) (.refl w) rfl ⟨rfl, rfl⟩
    refine hkeyword.bind ?_
    rintro _ _ - ⟨rfl, rfl⟩
    rw [Form.distinctInItems] at hf
    generalize head.keyword? = keyword at hf
    match keyword with
    | some .quote => exact lays_quotation items hn
    | some .lambda => exact lays_abstraction items hf next w hw hn
    | none | some .defineSyntax | some .ellipsis | some .underscore | some .invoke =>
      obtain ⟨hhead, hitems⟩ := Bool.and_eq_true_iff.mp hf
      exact lays_call (lays_form head hhead) (lays_arguments items hitems) hw hn
    | some .conditional =>
      exact lays_conditional items (Bool.and_eq_true_iff.mp hf).2 next w hw hn
    | some .assign =>
      exact lays_assignment false items (Bool.and_eq_true_iff.mp hf).2 next w hw hn
    | some .define =>
      exact lays_assignment true items (Bool.and_eq_true_iff.mp hf).2 next w hw hn
    | some .sequence => exact lays_sequence items (Bool.and_eq_true_iff.mp hf).2 next w hw hn
    | some .callCc => exact lays_callCc (lays_first items (Bool.and_eq_true_iff.mp hf).2) hw hn

theorem lays_abstraction (items : List Form) (hf : Form.distinctInAbstraction items = true)
    (next : NodeId) (w : Workspace) (hw : w.keywords.Fits w.symbols) (hn : w.code.Holds next) :
    LaysCode (abstraction items next) w := by
  match items with
  | .list params :: body =>
    rw [abstraction]
    rw [Form.distinctInAbstraction, Bool.and_eq_true] at hf
    refine (lays_parameters params w).bind ?_
    rintro ids w₁ hx₁ ⟨names, hnames, hids⟩
    have hnodup : names.Nodup := by
      have hall := hf.1
      rw [hnames] at hall
      exact of_decide_eq_true hall
    refine (lays_emit .ret rfl nofun).bind fun exit w₂ hx₂ hexit => ?_
    have hx₁₂ := hx₁.trans hx₂
    refine (lays_sequence body hf.2 exit w₂ (hx₁₂.fits hw) hexit).bind fun entry w₃ hx₃ hentry => ?_
    exact lays_emitClose (hids.nodup hnodup) hentry (hn.mono (hx₁₂.trans hx₃).code)
  | [] => exact lays_failure _
  | .int n :: _ => exact lays_failure _
  | .atom name :: _ => exact lays_failure _

theorem lays_conditional (items : List Form) (hf : Form.distinctInAll items = true)
    (next : NodeId) (w : Workspace) (hw : w.keywords.Fits w.symbols) (hn : w.code.Holds next) :
    LaysCode (conditional items next) w := by
  match items with
  | condition :: yes :: more =>
    rw [conditional]
    obtain ⟨hcondition, hf⟩ := Form.distinctInAll_cons hf
    obtain ⟨hyes, hmore⟩ := Form.distinctInAll_cons hf
    refine (lays_form yes hyes next w hw hn).bind fun onTrue w₁ hx₁ htrue => ?_
    refine (lays_alternative more hmore next w₁ (hx₁.fits hw) (hn.mono hx₁.code)).bind ?_
    intro onFalse w₂ hx₂ hfalse
    have htargets := holds_pair (n := .test onTrue onFalse) rfl (htrue.mono hx₂.code) hfalse
    refine (lays_emit (.test onTrue onFalse) rfl htargets).bind fun test w₃ hx₃ htest => ?_
    exact lays_form condition hcondition test w₃ ((hx₁.trans (hx₂.trans hx₃)).fits hw) htest
  | [] => exact lays_failure _
  | [_] => exact lays_failure _

theorem lays_assignment (declaring : Bool) (items : List Form)
    (hf : Form.distinctInAll items = true) (next : NodeId) (w : Workspace)
    (hw : w.keywords.Fits w.symbols) (hn : w.code.Holds next) :
    LaysCode (assignment declaring items next) w := by
  match items with
  | .atom name :: more =>
    rw [assignment]
    refine (lays_target declaring name w).bind fun id w₁ hx₁ _ => ?_
    refine (lays_emit (.assign id next) rfl (holds_single rfl (hn.mono hx₁.code))).bind ?_
    intro store w₂ hx₂ hstore
    exact lays_first more (Form.distinctInAll_cons hf).2 store w₂ ((hx₁.trans hx₂).fits hw) hstore
  | [] => exact lays_failure _
  | .int n :: _ => exact lays_failure _
  | .list items :: _ => exact lays_failure _

theorem lays_sequence (items : List Form) (hf : Form.distinctInAll items = true) (next : NodeId)
    (w : Workspace) (hw : w.keywords.Fits w.symbols) (hn : w.code.Holds next) :
    LaysCode (sequence items next) w := by
  match items with
  | [] =>
    rw [sequence]
    exact lays_pure hn
  | f :: rest =>
    rw [sequence]
    obtain ⟨hf, hrest⟩ := Form.distinctInAll_cons hf
    refine (lays_sequence rest hrest next w hw hn).bind fun after w₁ hx₁ hafter => ?_
    exact lays_form f hf after w₁ (hx₁.fits hw) hafter

theorem lays_arguments (items : List Form) (hf : Form.distinctInAll items = true) (next : NodeId)
    (w : Workspace) (hw : w.keywords.Fits w.symbols) (hn : w.code.Holds next) :
    LaysCode (arguments items next) w := by
  match items with
  | [] =>
    rw [arguments]
    exact lays_pure hn
  | f :: rest =>
    rw [arguments]
    obtain ⟨hf, hrest⟩ := Form.distinctInAll_cons hf
    refine (lays_arguments rest hrest next w hw hn).bind fun after w₁ hx₁ hafter => ?_
    refine (lays_emit (.argument after) rfl (holds_single rfl hafter)).bind ?_
    intro arg w₂ hx₂ harg
    exact lays_form f hf arg w₂ ((hx₁.trans hx₂).fits hw) harg

theorem lays_first (items : List Form) (hf : Form.distinctInAll items = true) (next : NodeId)
    (w : Workspace) (hw : w.keywords.Fits w.symbols) (hn : w.code.Holds next) :
    LaysCode (first items next) w := by
  match items with
  | [] => exact lays_failure _
  | f :: _ =>
    rw [first]
    exact lays_form f (Form.distinctInAll_cons hf).1 next w hw hn

theorem lays_alternative (items : List Form) (hf : Form.distinctInAll items = true)
    (next : NodeId) (w : Workspace) (hw : w.keywords.Fits w.symbols) (hn : w.code.Holds next) :
    LaysCode (alternative items next) w := by
  match items with
  | [] =>
    rw [alternative]
    exact lays_emit (.constant .unspecified next) rfl (holds_single rfl hn)
  | f :: _ =>
    rw [alternative]
    exact lays_form f (Form.distinctInAll_cons hf).1 next w hw hn

end

/-! ## Programs -/

/-- All forms of a text, ending in a fresh halt, without a look at the code afterwards. -/
def unchecked (forms : List Form) : Lowering NodeId := do sequence forms (← emit .halt)

theorem lays_unchecked {forms : List Form} (hf : Form.distinctInAll forms = true)
    (hw : w.keywords.Fits w.symbols) : LaysCode (unchecked forms) w :=
  (lays_emit .halt rfl nofun).bind fun halt w₁ hx₁ hhalt =>
    lays_sequence forms hf halt w₁ (hx₁.fits hw) hhalt

/-- The look at the code can only take the answer away. -/
theorem run_program_eq {forms : List Form} {o : Option NodeId} {w' : Workspace}
    (h : (unchecked forms).run w = (o, w')) :
    (program forms).run w = (if w'.code.defect?.isNone then o else none, w') := by
  rw [program, ← bind_assoc]
  change (unchecked forms >>= _).run w = _
  cases o with
  | none =>
    rw [run_bind_of_none h]
    split <;> rfl
  | some entry =>
    have hget : (get : Lowering Workspace).run w' = (some w', w') := rfl
    rw [run_bind_of_some h, run_bind_of_some hget]
    cases w'.code.defect? with
    | none => rfl
    | some defect => rfl

end Lowering

end ClosureMachine
