import ClosureMachine.Proofs.Lowering.Correct
import ClosureMachine.Proofs.Machine.Respelling
import ClosureMachine.Proofs.Symbol.Translation
import Mathlib.Data.List.Nodup

/-!
Lowering over two symbol tables. Workspaces are alike if every translation of ids between their
tables takes the one to the other; then lowering the same forms keeps them alike, and succeeds or
stops in both (`matched_program`). Which ids the forms get depends on what the tables held before,
but the forms decide where each id goes.

Both tables grow on the way, and the larger they are the fewer translations there are. So what holds
for every translation between two tables holds for every translation between later ones.
-/

namespace ClosureMachine

namespace Code

variable (σ : SymbolId → SymbolId) (c : Code)

theorem append_respell (n : Node) :
    (c.respell σ).append (n.respell σ) = ((c.append n).1, (c.append n).2.respell σ) := by
  simp only [append, size, respell, Array.map_push, Array.size_map]

theorem addClose_respell (names : List SymbolId) (body next : NodeId) :
    (c.respell σ).addClose (names.map σ) body next =
      ((c.addClose names body next).1, (c.addClose names body next).2.respell σ) := by
  simp only [addClose, addFormals, append, size, respell, Array.map_push, Array.size_map,
    Node.respell]

theorem isTail_respell (next : NodeId) : (c.respell σ).isTail next = c.isTail next := by
  rw [isTail, isTail, node?_respell]
  cases c.node? next with
  | none => rfl
  | some n => cases n <;> rfl

theorem successors_respell (n : Node) : (n.respell σ).successors = n.successors := by
  cases n <;> rfl

theorem carries_respell {c : Code} (hσ : Function.Injective σ) (n : Node) :
    (c.respell σ).Carries (n.respell σ) ↔ c.Carries n := by
  have hclose : ∀ f body next, n.respell σ = .close f body next ↔ n = .close f body next := by
    intro f body next
    cases n <;> simp [Node.respell]
  have hformals : ∀ f, (∃ names, (c.respell σ).formals? f = some names ∧ names.Nodup) ↔
      ∃ names, c.formals? f = some names ∧ names.Nodup := by
    intro f
    rw [formals?_respell]
    cases c.formals? f with
    | none => simp
    | some names => simp [List.nodup_map_iff hσ]
  constructor
  · rintro ⟨ht, hf⟩
    rw [successors_respell, size_respell] at ht
    exact ⟨ht, fun f body next hn => (hformals f).mp (hf f body next ((hclose ..).mpr hn))⟩
  · rintro ⟨ht, hf⟩
    refine ⟨?_, fun f body next hn => (hformals f).mpr (hf f body next ((hclose ..).mp hn))⟩
    rwa [successors_respell, size_respell]

/-- Whether code is valid does not depend on ids. -/
theorem valid_respell {c : Code} (hσ : Function.Injective σ) :
    (c.respell σ).Valid ↔ c.Valid := by
  constructor
  · intro h id n hn
    refine (carries_respell σ hσ n).mp (h id (n.respell σ) ?_)
    rw [node?_respell, hn, Option.map_some]
  · intro h id n' hn'
    rw [node?_respell, Option.map_eq_some_iff] at hn'
    obtain ⟨n, hn, rfl⟩ := hn'
    exact (carries_respell σ hσ n).mpr (h id n hn)

end Code

theorem Node.isHandleless_push {c c' : Code} (h : c.Handleless) {n : Node}
    (hn : n.isHandleless = true) (hp : c'.nodes = c.nodes.push n) : c'.Handleless := by
  intro n' hn'
  rw [hp, Array.toList_push, List.mem_append, List.mem_singleton] at hn'
  rcases hn' with hn' | rfl
  · exact h n' hn'
  · exact hn

/-- Every translation of ids takes one workspace to the other, where the handles in globals are
renamed by `ρ`. -/
structure Workspace.Alike (ρ : Nat → Nat) (w w' : Workspace) : Prop where
  keywords : w.keywords.Fits w.symbols
  keywords' : w'.keywords.Fits w'.symbols
  handleless : w.code.Handleless
  code : ∀ σ, w.symbols.Translates w'.symbols σ → w'.code = w.code.respell σ
  globals : ∀ σ, w.symbols.Translates w'.symbols σ →
    w'.globals = (w.globals.respell σ).rename ρ

namespace Lowering

variable {α β : Type} {ρ : Nat → Nat} {w w' : Workspace}

/-- The work leaves alike workspaces, and `f` translates one result into the other. -/
def Matched (ρ : Nat → Nat) (f : (SymbolId → SymbolId) → α → α) (x x' : Lowering α)
    (w w' : Workspace) : Prop :=
  ∃ o o' w₁ w₁', x.run w = (o, w₁) ∧ x'.run w' = (o', w₁') ∧
    w.symbols.Grows w₁.symbols ∧ w'.symbols.Grows w₁'.symbols ∧ w₁.Alike ρ w₁' ∧
    ∀ σ, w₁.symbols.Translates w₁'.symbols σ → o' = o.map (f σ)

/-- The results hold no ids: they are the same. -/
abbrev MatchedSame (ρ : Nat → Nat) (x x' : Lowering α) (w w' : Workspace) : Prop :=
  Matched ρ (fun _ a => a) x x' w w'

/-- The same work goes the same way in both workspaces. -/
abbrev Lockstep (ρ : Nat → Nat) (x : Lowering α) (w w' : Workspace) : Prop :=
  MatchedSame ρ x x w w'

theorem Matched.bind {f : (SymbolId → SymbolId) → α → α} {g : (SymbolId → SymbolId) → β → β}
    {x x' : Lowering α} {k k' : α → Lowering β} (h : Matched ρ f x x' w w')
    (hk : ∀ a a' w₁ w₁', w.symbols.Grows w₁.symbols → w'.symbols.Grows w₁'.symbols →
      w₁.Alike ρ w₁' → (∀ σ, w₁.symbols.Translates w₁'.symbols σ → a' = f σ a) →
        Matched ρ g (k a) (k' a') w₁ w₁') :
    Matched ρ g (x >>= k) (x' >>= k') w w' := by
  obtain ⟨o, o', w₁, w₁', hrun, hrun', hg, hg', ha, ho⟩ := h
  have hsome := ho _ (SymbolTable.translates_translation _ _ 0)
  cases o with
  | none =>
    cases hsome
    exact ⟨none, none, w₁, w₁', run_bind_of_none hrun, run_bind_of_none hrun', hg, hg', ha,
      fun _ _ => rfl⟩
  | some a =>
    subst hsome
    obtain ⟨o₂, o₂', w₂, w₂', hrun₂, hrun₂', hg₂, hg₂', hrest⟩ :=
      hk a _ w₁ w₁' hg hg' ha fun σ hσ => Option.some.inj (ho σ hσ)
    exact ⟨o₂, o₂', w₂, w₂', (run_bind_of_some hrun).trans hrun₂,
      (run_bind_of_some hrun').trans hrun₂', hg.trans hg₂, hg'.trans hg₂', hrest⟩

/-- The case of results without ids. -/
theorem Matched.andThen {g : (SymbolId → SymbolId) → β → β} {x x' : Lowering α}
    {k k' : α → Lowering β} (h : MatchedSame ρ x x' w w')
    (hk : ∀ a w₁ w₁', w.symbols.Grows w₁.symbols → w'.symbols.Grows w₁'.symbols →
      w₁.Alike ρ w₁' → Matched ρ g (k a) (k' a) w₁ w₁') :
    Matched ρ g (x >>= k) (x' >>= k') w w' := by
  refine h.bind fun a a' w₁ w₁' hg hg' ha heq => ?_
  obtain rfl := heq _ (SymbolTable.translates_translation _ _ 0)
  exact hk a' w₁ w₁' hg hg' ha

theorem matched_pure {f : (SymbolId → SymbolId) → α → α} {a a' : α} (h : w.Alike ρ w')
    (hf : ∀ σ, w.symbols.Translates w'.symbols σ → a' = f σ a) :
    Matched ρ f (pure a) (pure a') w w' :=
  ⟨some a, some a', w, w', rfl, rfl, .refl _, .refl _, h, fun σ hσ => congrArg some (hf σ hσ)⟩

theorem matched_failure (h : w.Alike ρ w') (f : (SymbolId → SymbolId) → α → α) :
    Matched ρ f (failure : Lowering α) failure w w' :=
  ⟨none, none, w, w', rfl, rfl, .refl _, .refl _, h, fun _ _ => rfl⟩

theorem matched_get {f : (SymbolId → SymbolId) → α → α} {k k' : Workspace → Lowering α}
    (h : Matched ρ f (k w) (k' w') w w') : Matched ρ f (get >>= k) (get >>= k') w w' := h

/-! ## Instructions and names -/

theorem matched_emit {n n' : Node} (h : w.Alike ρ w') (hn : n.isHandleless = true)
    (hnode : ∀ σ, w.symbols.Translates w'.symbols σ → n' = n.respell σ) :
    MatchedSame ρ (emit n) (emit n') w w' := by
  have hcode : ∀ σ, w.symbols.Translates w'.symbols σ →
      w'.code.append n' = ((w.code.append n).1, (w.code.append n).2.respell σ) := by
    intro σ hσ
    rw [h.code σ hσ, hnode σ hσ, Code.append_respell]
  refine ⟨_, _, _, _, run_emit n w, run_emit n' w', .refl _, .refl _, ?_, ?_⟩
  · refine ⟨h.keywords, h.keywords', Node.isHandleless_push h.handleless hn rfl, ?_, h.globals⟩
    exact fun σ hσ => congrArg Prod.snd (hcode σ hσ)
  · intro σ hσ
    rw [hcode σ hσ]
    rfl

/-- An instruction without ids. -/
theorem matched_emit_same {n : Node} (h : w.Alike ρ w') (hn : n.isHandleless = true)
    (hsame : ∀ σ, n.respell σ = n) : Lockstep ρ (emit n) w w' :=
  matched_emit h hn fun σ _ => (hsame σ).symm

theorem matched_emitClose {names names' : List SymbolId} {body next : NodeId} (h : w.Alike ρ w')
    (hnames : ∀ σ, w.symbols.Translates w'.symbols σ → names' = names.map σ) :
    MatchedSame ρ (emitClose names body next) (emitClose names' body next) w w' := by
  have hcode : ∀ σ, w.symbols.Translates w'.symbols σ → w'.code.addClose names' body next =
      ((w.code.addClose names body next).1, (w.code.addClose names body next).2.respell σ) := by
    intro σ hσ
    rw [h.code σ hσ, hnames σ hσ, Code.addClose_respell]
  refine ⟨_, _, _, _, run_emitClose names body next w, run_emitClose names' body next w', .refl _,
    .refl _, ?_, ?_⟩
  · refine ⟨h.keywords, h.keywords', ?_, ?_, h.globals⟩
    · exact Node.isHandleless_push (n := .close _ body next) h.handleless rfl rfl
    · exact fun σ hσ => congrArg Prod.snd (hcode σ hσ)
  · intro σ hσ
    rw [hcode σ hσ]
    rfl

theorem matched_symbol (name : String) (h : w.Alike ρ w') :
    Matched ρ (fun σ id => σ id) (symbol name) (symbol name) w w' := by
  have hg := SymbolTable.grows_intern w.symbols name
  have hg' := SymbolTable.grows_intern w'.symbols name
  refine ⟨_, _, _, _, run_symbol name w, run_symbol name w', hg, hg', ?_, fun σ hσ => ?_⟩
  · exact ⟨h.keywords.mono hg, h.keywords'.mono hg', h.handleless,
      fun σ hσ => h.code σ (hσ.anti hg hg'), fun σ hσ => h.globals σ (hσ.anti hg hg')⟩
  · have hid := hσ.find? name _ _ (w.symbols.find?_intern name) (w'.symbols.find?_intern name)
    exact congrArg some hid.symm

theorem matched_declare {id id' : SymbolId} (h : w.Alike ρ w')
    (hid : ∀ σ, w.symbols.Translates w'.symbols σ → id' = σ id) :
    MatchedSame ρ (declare id) (declare id') w w' := by
  have hcontains : w'.globals.contains id' = w.globals.contains id := by
    have hσ := SymbolTable.translates_translation w.symbols w'.symbols 0
    rw [h.globals _ hσ, hid _ hσ, Globals.contains_rename, Globals.contains_respell hσ.injective]
  refine ⟨_, _, _, _, run_declare id w, run_declare id' w', ?_, ?_, ?_, fun _ _ => rfl⟩
  · split <;> exact .refl _
  · split <;> exact .refl _
  · rw [hcontains]
    split
    · exact h
    · refine ⟨h.keywords, h.keywords', h.handleless, h.code, fun σ hσ => ?_⟩
      rw [← Globals.define_respell hσ.injective, ← Globals.define_rename, ← h.globals σ hσ,
        ← hid σ hσ]
      rfl

theorem matched_target (declaring : Bool) (name : String) (h : w.Alike ρ w') :
    Matched ρ (fun σ id => σ id) (target declaring name) (target declaring name) w w' := by
  unfold target
  refine (matched_symbol name h).bind fun id id' w₁ w₁' _ _ h₁ hid => ?_
  cases declaring with
  | false => exact matched_pure h₁ hid
  | true =>
    refine (matched_declare h₁ hid).andThen fun _ w₂ w₂' hg hg' h₂ => ?_
    exact matched_pure h₂ fun σ hσ => hid σ (hσ.anti hg hg')

theorem matched_bracket (start next : NodeId) (h : w.Alike ρ w') :
    Lockstep ρ (bracket start next) w w' := by
  have htail : w'.code.isTail next = w.code.isTail next := by
    rw [h.code _ (SymbolTable.translates_translation w.symbols w'.symbols 0), Code.isTail_respell]
  unfold bracket
  refine matched_get ?_
  rw [htail]
  split
  · exact matched_pure h fun _ _ => rfl
  · exact matched_emit_same h rfl fun _ => rfl

theorem matched_parameters (params : List Form) (h : w.Alike ρ w') :
    Matched ρ (fun σ names => names.map σ) (parameters params) (parameters params) w w' := by
  induction params generalizing w w' with
  | nil => exact matched_pure h fun _ _ => rfl
  | cons f rest ih =>
    cases f with
    | int n => exact matched_failure h _
    | list items => exact matched_failure h _
    | atom name =>
      rw [parameters]
      refine (matched_symbol name h).bind fun id id' w₁ w₁' _ _ h₁ hid => ?_
      refine (ih h₁).bind fun ids ids' w₂ w₂' hg hg' h₂ hids => matched_pure h₂ fun σ hσ => ?_
      rw [hid σ (hσ.anti hg hg'), hids σ hσ, List.map_cons]

theorem matched_quotation (items : List Form) (next : NodeId) (h : w.Alike ρ w') :
    Lockstep ρ (quotation items next) w w' := by
  cases items with
  | nil => exact matched_failure h _
  | cons datum rest =>
    cases datum with
    | int n => exact matched_emit_same h rfl fun _ => rfl
    | list items => exact matched_emit_same h rfl fun _ => rfl
    | atom name =>
      have hquote : quotation (.atom name :: rest) next =
          (do emit (.constant (.symbol (← symbol name)) next)) := rfl
      rw [hquote]
      refine (matched_symbol name h).bind fun id id' w₁ w₁' _ _ h₁ hid => ?_
      exact matched_emit h₁ rfl fun σ hσ => by rw [hid σ hσ]; rfl

/-! ## Forms -/

private theorem matched_call {head : Form} {items : List Form}
    (hhead : ∀ next w w', w.Alike ρ w' → Lockstep ρ (form head next) w w')
    (hitems : ∀ next w w', w.Alike ρ w' → Lockstep ρ (arguments items next) w w')
    (next : NodeId) (h : w.Alike ρ w') :
    Lockstep ρ
      (do
        let call ← emit .apply
        bracket (← arguments items (← form head call)) next) w w' := by
  refine (matched_emit_same (n := .apply) h rfl fun _ => rfl).andThen fun call w₁ w₁' _ _ h₁ => ?_
  refine (hhead call w₁ w₁' h₁).andThen fun callee w₂ w₂' _ _ h₂ => ?_
  exact (hitems callee w₂ w₂' h₂).andThen fun start w₃ w₃' _ _ h₃ => matched_bracket start next h₃

private theorem matched_callCc {items : List Form}
    (hfirst : ∀ next w w', w.Alike ρ w' → Lockstep ρ (first items next) w w')
    (next : NodeId) (h : w.Alike ρ w') :
    Lockstep ρ
      (do
        let call ← emit .apply
        let callee ← first items call
        let arg ← emit (.argument callee)
        bracket (← emit (.conti arg)) next) w w' := by
  refine (matched_emit_same (n := .apply) h rfl fun _ => rfl).andThen fun call w₁ w₁' _ _ h₁ => ?_
  refine (hfirst call w₁ w₁' h₁).andThen fun callee w₂ w₂' _ _ h₂ => ?_
  refine (matched_emit_same h₂ rfl fun _ => rfl).andThen fun arg w₃ w₃' _ _ h₃ => ?_
  refine (matched_emit_same h₃ rfl fun _ => rfl).andThen fun start w₄ w₄' _ _ h₄ => ?_
  exact matched_bracket start next h₄

mutual

theorem matched_form (f : Form) (next : NodeId) (w w' : Workspace) (h : w.Alike ρ w') :
    Lockstep ρ (form f next) w w' := by
  match f with
  | .int n =>
    rw [form]
    exact matched_emit_same h rfl fun _ => rfl
  | .atom name =>
    rw [form]
    split
    · exact matched_emit_same h rfl fun _ => rfl
    · split
      · exact matched_emit_same h rfl fun _ => rfl
      · refine (matched_symbol name h).bind fun id id' w₁ w₁' _ _ h₁ hid => ?_
        exact matched_emit h₁ rfl fun σ hσ => by rw [hid σ hσ]; rfl
  | .list items =>
    rw [form]
    exact matched_compound items next w w' h

theorem matched_compound (items : List Form) (next : NodeId) (w w' : Workspace)
    (h : w.Alike ρ w') : Lockstep ρ (compound items next) w w' := by
  match items with
  | [] =>
    rw [compound]
    exact matched_emit_same h rfl fun _ => rfl
  | head :: items =>
    rw [compound]
    have hkeyword : Lockstep ρ (keyword? head) w w' :=
      ⟨_, _, w, w', run_keyword?_of_fits h.keywords head, run_keyword?_of_fits h.keywords' head,
        .refl _, .refl _, h, fun _ _ => rfl⟩
    refine hkeyword.andThen fun k w w' _ _ h => ?_
    have hcall := matched_call (matched_form head) (matched_arguments items) next h
    rcases k with _ | k
    · exact hcall
    · cases k with
      | quote => exact matched_quotation items next h
      | lambda => exact matched_abstraction items next w w' h
      | conditional => exact matched_conditional items next w w' h
      | assign => exact matched_assignment false items next w w' h
      | define => exact matched_assignment true items next w w' h
      | sequence => exact matched_sequence items next w w' h
      | callCc => exact matched_callCc (matched_first items) next h
      | defineSyntax => exact hcall
      | ellipsis => exact hcall
      | underscore => exact hcall
      | invoke => exact hcall

theorem matched_abstraction (items : List Form) (next : NodeId) (w w' : Workspace)
    (h : w.Alike ρ w') : Lockstep ρ (abstraction items next) w w' := by
  match items with
  | .list params :: body =>
    rw [abstraction]
    refine (matched_parameters params h).bind fun names names' w₁ w₁' _ _ h₁ hnames => ?_
    refine (matched_emit_same (n := .ret) h₁ rfl fun _ => rfl).andThen ?_
    intro exit w₂ w₂' hg₂ hg₂' h₂
    refine (matched_sequence body exit w₂ w₂' h₂).andThen fun start w₃ w₃' hg₃ hg₃' h₃ => ?_
    refine matched_emitClose h₃ fun σ hσ => ?_
    exact hnames σ (hσ.anti (hg₂.trans hg₃) (hg₂'.trans hg₃'))
  | [] => exact matched_failure h _
  | .int n :: _ => exact matched_failure h _
  | .atom name :: _ => exact matched_failure h _

theorem matched_conditional (items : List Form) (next : NodeId) (w w' : Workspace)
    (h : w.Alike ρ w') : Lockstep ρ (conditional items next) w w' := by
  match items with
  | condition :: yes :: more =>
    rw [conditional]
    refine (matched_form yes next w w' h).andThen fun onTrue w₁ w₁' _ _ h₁ => ?_
    refine (matched_alternative more next w₁ w₁' h₁).andThen fun onFalse w₂ w₂' _ _ h₂ => ?_
    refine (matched_emit_same h₂ rfl fun _ => rfl).andThen fun test w₃ w₃' _ _ h₃ => ?_
    exact matched_form condition test w₃ w₃' h₃
  | [] => exact matched_failure h _
  | [_] => exact matched_failure h _

theorem matched_assignment (declaring : Bool) (items : List Form) (next : NodeId)
    (w w' : Workspace) (h : w.Alike ρ w') :
    Lockstep ρ (assignment declaring items next) w w' := by
  match items with
  | .atom name :: more =>
    rw [assignment]
    refine (matched_target declaring name h).bind fun id id' w₁ w₁' _ _ h₁ hid => ?_
    have hstore : MatchedSame ρ (emit (.assign id next)) (emit (.assign id' next)) w₁ w₁' :=
      matched_emit h₁ rfl fun σ hσ => by rw [hid σ hσ]; rfl
    exact hstore.andThen fun store w₂ w₂' _ _ h₂ => matched_first more store w₂ w₂' h₂
  | [] => exact matched_failure h _
  | .int n :: _ => exact matched_failure h _
  | .list items :: _ => exact matched_failure h _

theorem matched_sequence (items : List Form) (next : NodeId) (w w' : Workspace)
    (h : w.Alike ρ w') : Lockstep ρ (sequence items next) w w' := by
  match items with
  | [] =>
    rw [sequence]
    exact matched_pure h fun _ _ => rfl
  | f :: rest =>
    rw [sequence]
    refine (matched_sequence rest next w w' h).andThen fun after w₁ w₁' _ _ h₁ => ?_
    exact matched_form f after w₁ w₁' h₁

theorem matched_arguments (items : List Form) (next : NodeId) (w w' : Workspace)
    (h : w.Alike ρ w') : Lockstep ρ (arguments items next) w w' := by
  match items with
  | [] =>
    rw [arguments]
    exact matched_pure h fun _ _ => rfl
  | f :: rest =>
    rw [arguments]
    refine (matched_arguments rest next w w' h).andThen fun after w₁ w₁' _ _ h₁ => ?_
    refine (matched_emit_same h₁ rfl fun _ => rfl).andThen fun arg w₂ w₂' _ _ h₂ => ?_
    exact matched_form f arg w₂ w₂' h₂

theorem matched_first (items : List Form) (next : NodeId) (w w' : Workspace)
    (h : w.Alike ρ w') : Lockstep ρ (first items next) w w' := by
  match items with
  | [] => exact matched_failure h _
  | f :: _ =>
    rw [first]
    exact matched_form f next w w' h

theorem matched_alternative (items : List Form) (next : NodeId) (w w' : Workspace)
    (h : w.Alike ρ w') : Lockstep ρ (alternative items next) w w' := by
  match items with
  | [] =>
    rw [alternative]
    exact matched_emit_same h rfl fun _ => rfl
  | f :: _ =>
    rw [alternative]
    exact matched_form f next w w' h

end

/-- Lowering a text in two workspaces that are alike succeeds or stops in both, at the same entry,
and leaves them alike. -/
theorem matched_program (forms : List Form) (h : w.Alike ρ w') :
    Lockstep ρ (program forms) w w' := by
  unfold program
  refine (matched_emit_same (n := .halt) h rfl fun _ => rfl).andThen fun halt w₁ w₁' _ _ h₁ => ?_
  refine (matched_sequence forms halt w₁ w₁' h₁).andThen fun entry w₂ w₂' _ _ h₂ => ?_
  have hvalid : w₂'.code.defect? = none ↔ w₂.code.defect? = none := by
    have hσ := SymbolTable.translates_translation w₂.symbols w₂'.symbols 0
    rw [Code.defect?_eq_none_iff, Code.defect?_eq_none_iff, h₂.code _ hσ,
      Code.valid_respell _ hσ.injective]
  refine matched_get ?_
  cases hd : w₂.code.defect? with
  | none =>
    rw [hvalid.mpr hd]
    exact matched_pure h₂ fun _ _ => rfl
  | some d =>
    obtain ⟨d', hd'⟩ := Option.ne_none_iff_exists'.mp fun hnone => by
      rw [hvalid.mp hnone] at hd
      cases hd
    rw [hd']
    exact matched_failure h₂ _

end Lowering

end ClosureMachine
