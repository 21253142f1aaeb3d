import ClosureMachine.Proofs.Lowering.Correct
import ClosureMachine.Proofs.Lowering.Placed

/-!
Lowering leaves tidy code. Ids are words; what has been written after they ran over cannot be
reached, and every procedure that can be made has a body that was placed as a whole
(`Code.Tidy.bodies`). This needs no bound on the size of the code, and it holds whether lowering
succeeds or stops on the way (`run_program_tidy`). While ids have not run over, a form is placed as
the expression that it stands for (`arranges_form`).
-/

namespace ClosureMachine

open Workspace

/-- Ids are words, and every instruction that can be reached and makes a procedure names the start
of a body. -/
structure Code.Tidy (c : Code) : Prop where
  words : ∀ id n, c.node? id = some n → ∀ t ∈ n.successors, t < wordLimit
  bodies : ∀ id f entry next, id < wordLimit → c.node? id = some (.close f entry next) →
    ∃ es exit tails, c.Body es exit entry tails

/-- Instructions that neither install a stack nor make a procedure. -/
def Node.isSimple : Node → Bool
  | .nuate .. | .close .. => false
  | _ => true

/-- An instruction has been added. -/
theorem Code.Tidy.push {c c' : Code} {n : Node} (h : c.Tidy) (hg : c.Grows c')
    (hp : c'.nodes = c.nodes.push n) (hw : ∀ t ∈ n.successors, t < wordLimit)
    (hb : ∀ f entry next, n = .close f entry next → c.size < wordLimit →
      ∃ es exit tails, c'.Body es exit entry tails) : c'.Tidy where
  words id n' hn := by
    simp only [Code.node?, hp, Array.getElem?_push] at hn
    split at hn
    · cases hn
      exact hw
    · exact h.words id n' hn
  bodies id f entry next hid hn := by
    simp only [Code.node?, hp, Array.getElem?_push] at hn
    split at hn
    · next heq =>
      subst heq
      exact hb f entry next (Option.some.inj hn) hid
    · obtain ⟨es, exit, tails, hbody⟩ := h.bodies id f entry next hid hn
      exact ⟨es, exit, tails, hbody.mono hg⟩

namespace Lowering

variable {α β γ τ : Type} {w : Workspace}

/-- Whether the work succeeds or stops, it leaves tidy code; and if it succeeds, then `R` holds. -/
def Arranges (x : Lowering α) (w : Workspace) (R : α → Workspace → Prop) : Prop :=
  ∃ o w', x.run w = (o, w') ∧ w.Extends w' ∧ w'.code.Tidy ∧ ∀ a, o = some a → R a w'

theorem Arranges.bind {x : Lowering α} {R : α → Workspace → Prop} {S : γ → Workspace → Prop}
    (h : Arranges x w R) {f : α → Lowering γ}
    (hf : ∀ a w', w.Extends w' → w'.code.Tidy → R a w' → Arranges (f a) w' S) :
    Arranges (x >>= f) w S := by
  obtain ⟨o, w₁, hrun, hx, ht, hr⟩ := h
  cases o with
  | none => exact ⟨none, w₁, run_bind_of_none hrun, hx, ht, nofun⟩
  | some a =>
    obtain ⟨o, w₂, hrun₂, hx₂, ht₂, hs⟩ := hf a w₁ hx ht (hr a rfl)
    exact ⟨o, w₂, (run_bind_of_some hrun).trans hrun₂, hx.trans hx₂, ht₂, hs⟩

theorem Arranges.imp {x : Lowering α} {R S : α → Workspace → Prop} (h : Arranges x w R)
    (hs : ∀ a w', w.Extends w' → R a w' → S a w') : Arranges x w S := by
  obtain ⟨o, w', hrun, hx, ht, hr⟩ := h
  exact ⟨o, w', hrun, hx, ht, fun a ha => hs a w' hx (hr a ha)⟩

theorem arranges_failure (ht : w.code.Tidy) (R : α → Workspace → Prop) :
    Arranges (failure : Lowering α) w R := ⟨none, w, rfl, .refl w, ht, nofun⟩

theorem arranges_pure (ht : w.code.Tidy) {a : α} {R : α → Workspace → Prop} (h : R a w) :
    Arranges (pure a) w R := by
  refine ⟨some a, w, rfl, .refl w, ht, ?_⟩
  rintro _ ⟨⟩
  exact h

theorem arranges_get (ht : w.code.Tidy) :
    Arranges (get : Lowering Workspace) w fun a w' => w = a ∧ w = w' := by
  refine ⟨some w, w, rfl, .refl w, ht, ?_⟩
  rintro _ ⟨⟩
  exact ⟨rfl, rfl⟩

/-! ## Instructions -/

/-- An instruction stands at the end of the code; `id` is its position unless ids have run over. -/
structure Emitted (w : Workspace) (n : Node) (id : NodeId) (w' : Workspace) : Prop where
  word : id < wordLimit
  size : w'.code.size = w.code.size + 1
  node : w'.code.node? w.code.size = some n
  position : w'.code.size ≤ wordLimit → id = w.code.size

theorem arranges_emit (n : Node) (hs : n.isSimple = true) (ht : w.code.Tidy)
    (hw : ∀ t ∈ n.successors, t < wordLimit) : Arranges (emit n) w (Emitted w n) := by
  have hnu : ∀ stack var, n ≠ .nuate stack var := by
    rintro stack var rfl
    cases hs
  obtain ⟨id, w', hrun, hx, -⟩ := emit_adds n hnu w
  cases (run_emit n w).symm.trans hrun
  refine ⟨_, _, hrun, hx, ht.push (Code.grows_append _ _) rfl hw ?_, ?_⟩
  · rintro f entry next rfl
    cases hs
  · rintro _ ⟨⟩
    constructor
    case word => exact Nat.mod_lt _ wordLimit_pos
    case size => exact Code.size_append _ _
    case node => exact Code.node?_append_new _ _
    case position =>
      intro hle
      rw [Code.size_append] at hle
      exact Code.append_fst (by omega) n

theorem arranges_emitClose {names : List SymbolId} {entry next : NodeId} (ht : w.code.Tidy)
    (hr : w.Ready) (hentry : entry < wordLimit) (hnext : next < wordLimit)
    (hb : w.code.size < wordLimit → ∃ es exit tails, w.code.Body es exit entry tails) :
    Arranges (emitClose names entry next) w fun id w' =>
      ∃ f, Emitted w (.close f entry next) id w' := by
  have hfollows : Follows (emitClose names entry next) (some ()) w fun _ _ _ => True :=
    follows_emitClose hr fun _ _ _ _ _ => trivial
  obtain ⟨id, w', hrun, hx, -⟩ := hfollows
  cases (run_emitClose names entry next w).symm.trans hrun
  have hg := Code.grows_addClose w.code names entry next
  refine ⟨_, _, hrun, hx, ht.push hg rfl ?_ ?_, ?_⟩
  · simp only [Node.successors, List.mem_cons, List.not_mem_nil, or_false]
    rintro t (rfl | rfl)
    · exact hentry
    · exact hnext
  · rintro _ _ _ ⟨⟩ hlt
    obtain ⟨es, exit, tails, hbody⟩ := hb hlt
    exact ⟨es, exit, tails, hbody.mono hg⟩
  · rintro _ ⟨⟩
    refine ⟨w.code.formals.size % wordLimit, ?_, ?_, ?_, ?_⟩
    · exact Nat.mod_lt _ wordLimit_pos
    · exact Code.size_addClose _ _ _ _
    · exact Array.getElem?_push_size
    · intro hle
      rw [Code.size_addClose] at hle
      exact Nat.mod_eq_of_lt (Nat.lt_of_succ_le hle)

/-- A call at `inner` has been bracketed. -/
theorem arranges_bracket {inner next : NodeId} (ht : w.code.Tidy) (hi : inner < wordLimit)
    (hn : next < wordLimit) :
    Arranges (bracket inner next) w fun start w' => start < wordLimit ∧
      (w'.code.size ≤ wordLimit → next < w.code.size → inner < w.code.size →
        start < w'.code.size ∧
          w'.code.Encloses w.code.size w'.code.size next inner start) := by
  unfold bracket
  refine (arranges_get ht).bind ?_
  rintro _ _ - - ⟨rfl, rfl⟩
  split
  · next htail =>
    have hret : w.code.node? next = some .ret := by simpa [Code.isTail] using htail
    exact arranges_pure ht ⟨hi, fun _ _ hlt => ⟨hlt, .inl ⟨hret, rfl, rfl⟩⟩⟩
  · next htail =>
    have hret : w.code.node? next ≠ some .ret := by simpa [Code.isTail] using htail
    have hwords : ∀ t ∈ (Node.frame next inner).successors, t < wordLimit := by
      simp only [Node.successors, List.mem_cons, List.not_mem_nil, or_false]
      rintro t (rfl | rfl)
      · exact hi
      · exact hn
    refine (arranges_emit (.frame next inner) rfl ht hwords).imp ?_
    intro start w' hx he
    refine ⟨he.word, fun hle hnext _ => ?_⟩
    obtain ⟨n, hnode⟩ := Code.exists_node_of_lt hnext
    rw [he.position hle, he.size]
    refine ⟨Nat.lt_succ_self _, .inr ⟨n, hx.code.node? hnode, ?_, he.node, rfl, rfl⟩⟩
    rintro rfl
    exact hret hnode

/-! ## Expressions -/

/-- What `o` reads has been placed between the sizes of the two codes, unless ids have run over. -/
def Arranged (P : Code → β → Nat → Nat → NodeId → NodeId → τ → Prop) (o : Option β)
    (w : Workspace) (next start : NodeId) (w' : Workspace) : Prop :=
  start < wordLimit ∧ ∃ b t, o = some b ∧
    (w'.code.size ≤ wordLimit → next < w.code.size →
      start < w'.code.size ∧ P w'.code b w.code.size w'.code.size next start t)

/-- One instruction that goes on at `next` is the whole expression. -/
theorem Emitted.arranged {n : Node} {start next : NodeId} {e : Expr} {w' : Workspace}
    (h : Emitted w n start w')
    (hp : w'.code.node? w.code.size = some n →
      Placed w'.code e w.code.size (w.code.size + 1) next w.code.size []) :
    Arranged Placed (some e) w next start w' := by
  refine ⟨h.word, e, [], rfl, fun hle _ => ?_⟩
  rw [h.position hle, h.size]
  exact ⟨Nat.lt_succ_self _, hp h.node⟩

theorem words_single {n : Node} {next : NodeId} (hs : n.successors = [next])
    (hn : next < wordLimit) : ∀ t ∈ n.successors, t < wordLimit := by
  rw [hs]
  rintro t ht
  cases List.mem_singleton.mp ht
  exact hn

theorem arranges_literal {next : NodeId} (ht : w.code.Tidy) (hn : next < wordLimit) (d : Datum)
    (v : Value) :
    Arranges (emit (.constant v next)) w (Arranged Placed (some (.literal d)) w next) :=
  (arranges_emit (.constant v next) rfl ht (words_single rfl hn)).imp
    fun _ _ _ h => h.arranged .literal

theorem arranges_symbol (name : String) (ht : w.code.Tidy) :
    Arranges (symbol name) w fun _ w' => w.code = w'.code :=
  ⟨_, _, run_symbol name w, extends_symbol name w, ht, fun _ _ => rfl⟩

theorem arranges_variable {name : String} {next : NodeId} (ht : w.code.Tidy)
    (hn : next < wordLimit) :
    Arranges (do emit (.refer (← symbol name) next)) w
      (Arranged Placed (some (.variable name)) w next) := by
  refine (arranges_symbol name ht).bind fun id w₁ _ ht₁ hc => ?_
  refine (arranges_emit (.refer id next) rfl ht₁ (words_single rfl hn)).imp ?_
  intro start w₂ _ he
  unfold Arranged
  rw [hc]
  exact he.arranged .variable

theorem arranges_parameters (params : List Form) (ht : w.code.Tidy) :
    Arranges (parameters params) w fun _ w' =>
      (∃ names, Form.names? params = some names) ∧ w.code = w'.code := by
  induction params generalizing w with
  | nil => exact arranges_pure ht ⟨⟨[], rfl⟩, rfl⟩
  | cons f rest ih =>
    cases f with
    | int n => exact arranges_failure ht _
    | list items => exact arranges_failure ht _
    | atom name =>
      rw [parameters]
      refine (arranges_symbol name ht).bind fun id w₁ _ ht₁ hc₁ => ?_
      refine (ih ht₁).bind ?_
      rintro ids w₂ - ht₂ ⟨⟨names, hnames⟩, hc₂⟩
      refine arranges_pure ht₂ ⟨⟨name :: names, ?_⟩, hc₁.trans hc₂⟩
      rw [Form.names?, hnames]
      rfl

theorem arranges_quotation {next : NodeId} (items : List Form) (ht : w.code.Tidy)
    (hn : next < wordLimit) :
    Arranges (quotation items next) w
      (Arranged Placed (items.head?.map fun datum => Expr.literal (.ofForm datum)) w next) := by
  cases items with
  | nil => exact arranges_failure ht _
  | cons datum rest =>
    have hquoted : Arranges (quotedValue datum) w fun _ w' => w.code = w'.code := by
      cases datum with
      | int n => exact arranges_pure ht rfl
      | list items => exact arranges_pure ht rfl
      | atom name =>
        exact (arranges_symbol name ht).bind fun _ _ _ ht₁ hc => arranges_pure ht₁ hc
    refine hquoted.bind fun v w₁ _ ht₁ hc => ?_
    refine (arranges_literal ht₁ hn (.ofForm datum) v).imp fun start w₂ _ h => ?_
    unfold Arranged at h ⊢
    rw [hc]
    exact h

theorem code_target (declaring : Bool) (name : String) (w : Workspace) :
    ((target declaring name).run w).2.code = w.code := by
  unfold target
  rw [run_bind_of_some (run_symbol name w)]
  cases declaring with
  | false => rfl
  | true =>
    rw [if_pos rfl, run_bind_of_some (run_declare _ _)]
    change (if _ then _ else _ : Workspace).code = _
    split <;> rfl

theorem arranges_target (declaring : Bool) (name : String) (ht : w.code.Tidy) :
    Arranges (target declaring name) w fun _ w' => w.code = w'.code := by
  obtain ⟨id, w', hrun, hx, -⟩ := follows_target declaring name w
  have hc : w'.code = w.code := by
    have hsame := code_target declaring name w
    rwa [hrun] at hsame
  exact ⟨some id, w', hrun, hx, hc.symm ▸ ht, fun _ _ => hc.symm⟩

section Calls

variable {next : NodeId}

private theorem arranges_call {head : Form} {items : List Form}
    (hhead : ∀ next w, w.Ready → w.code.Tidy → next < wordLimit →
      Arranges (form head next) w (Arranged Placed (Expr.ofForm? head) w next))
    (hitems : ∀ next w, w.Ready → w.code.Tidy → next < wordLimit →
      Arranges (arguments items next) w (Arranged PlacedArgs (Expr.ofForms? items) w next))
    (hw : w.Ready) (ht : w.code.Tidy) (hn : next < wordLimit) :
    Arranges
      (do
        let call ← emit .apply
        bracket (← arguments items (← form head call)) next) w
      (Arranged Placed
        (do
          let operator ← Expr.ofForm? head
          let args ← Expr.ofForms? items
          return .call operator args) w next) := by
  refine (arranges_emit .apply rfl ht nofun).bind fun call w₁ hx₁ ht₁ he₁ => ?_
  refine (hhead call w₁ (hw.mono hx₁) ht₁ he₁.word).bind ?_
  rintro callee w₂ hx₂ ht₂ ⟨hcallee, operator, tails, hop, h₂⟩
  refine (hitems callee w₂ (hw.mono (hx₁.trans hx₂)) ht₂ hcallee).bind ?_
  rintro inner w₃ hx₃ ht₃ ⟨hinner, args, ids, hargs, h₃⟩
  refine (arranges_bracket ht₃ hinner hn).imp ?_
  rintro start w₄ hx₄ ⟨hstart, h₄⟩
  rw [hop, hargs]
  refine ⟨hstart, .call operator args, [.call w.code.size ids], rfl, fun hle hnext => ?_⟩
  have hle₃ := Nat.le_trans hx₄.code.size_le hle
  have hle₂ := Nat.le_trans hx₃.code.size_le hle₃
  have hle₁ := Nat.le_trans hx₂.code.size_le hle₂
  have hcall := he₁.position hle₁
  obtain ⟨hlt₂, hp₂⟩ := h₂ hle₂ (by rw [hcall, he₁.size]; exact Nat.lt_succ_self _)
  obtain ⟨hlt₃, hp₃⟩ := h₃ hle₃ hlt₂
  have hx := hx₁.trans (hx₂.trans hx₃)
  obtain ⟨hlt₄, hb⟩ := h₄ hle (Nat.lt_of_lt_of_le hnext hx.code.size_le) hlt₃
  rw [he₁.size, hcall] at hp₂
  exact ⟨hlt₄, .call ((hx₂.trans (hx₃.trans hx₄)).code.node? he₁.node)
    (hp₂.mono (hx₃.trans hx₄).code) (hp₃.mono hx₄.code) hb⟩

private theorem arranges_callCc {items : List Form}
    (hfirst : ∀ next w, w.Ready → w.code.Tidy → next < wordLimit →
      Arranges (first items next) w (Arranged Placed (Expr.ofFirst? items) w next))
    (hw : w.Ready) (ht : w.code.Tidy) (hn : next < wordLimit) :
    Arranges
      (do
        let call ← emit .apply
        let callee ← first items call
        let arg ← emit (.argument callee)
        bracket (← emit (.conti arg)) next) w
      (Arranged Placed
        (do
          let e ← Expr.ofFirst? items
          return .callCc e) w next) := by
  refine (arranges_emit .apply rfl ht nofun).bind fun call w₁ hx₁ ht₁ he₁ => ?_
  refine (hfirst call w₁ (hw.mono hx₁) ht₁ he₁.word).bind ?_
  rintro callee w₂ hx₂ ht₂ ⟨hcallee, e, tails, hfirst, h₂⟩
  refine (arranges_emit (.argument callee) rfl ht₂ (words_single rfl hcallee)).bind ?_
  intro arg w₃ hx₃ ht₃ he₃
  refine (arranges_emit (.conti arg) rfl ht₃ (words_single rfl he₃.word)).bind ?_
  intro inner w₄ hx₄ ht₄ he₄
  refine (arranges_bracket ht₄ he₄.word hn).imp ?_
  rintro start w₅ hx₅ ⟨hstart, h₅⟩
  rw [hfirst]
  refine ⟨hstart, .callCc e, [.callCc w.code.size], rfl, fun hle hnext => ?_⟩
  have hle₄ := Nat.le_trans hx₅.code.size_le hle
  have hle₃ := Nat.le_trans hx₄.code.size_le hle₄
  have hle₂ := Nat.le_trans hx₃.code.size_le hle₃
  have hle₁ := Nat.le_trans hx₂.code.size_le hle₂
  have hcall := he₁.position hle₁
  obtain ⟨-, hp₂⟩ := h₂ hle₂ (by rw [hcall, he₁.size]; exact Nat.lt_succ_self _)
  have hx := hx₁.trans (hx₂.trans (hx₃.trans hx₄))
  have hinner : inner < w₄.code.size := by
    rw [he₄.position hle₄, he₄.size]
    exact Nat.lt_succ_self _
  obtain ⟨hlt₅, hb⟩ := h₅ hle (Nat.lt_of_lt_of_le hnext hx.code.size_le) hinner
  have hconti := he₄.node
  rw [he₃.position hle₃, he₃.size] at hconti
  rw [he₁.size, hcall] at hp₂
  rw [he₄.position hle₄, he₄.size, he₃.size] at hb
  have hx₃₅ := hx₃.trans (hx₄.trans hx₅)
  exact ⟨hlt₅, .callCc ((hx₂.trans hx₃₅).code.node? he₁.node) (hp₂.mono hx₃₅.code)
    ((hx₄.trans hx₅).code.node? he₃.node) (hx₅.code.node? hconti) hb⟩

end Calls

mutual

theorem arranges_form (f : Form) (next : NodeId) (w : Workspace) (hw : w.Ready)
    (ht : w.code.Tidy) (hn : next < wordLimit) :
    Arranges (form f next) w (Arranged Placed (Expr.ofForm? f) w next) := by
  match f with
  | .int n =>
    rw [form, Expr.ofForm?]
    exact arranges_literal ht hn _ _
  | .atom name =>
    rw [form, Expr.ofForm?, Expr.ofAtom]
    split
    · exact arranges_literal ht hn _ _
    · split
      · exact arranges_literal ht hn _ _
      · exact arranges_variable ht hn
  | .list items =>
    rw [form, Expr.ofForm?]
    exact arranges_compound items next w hw ht hn

theorem arranges_compound (items : List Form) (next : NodeId) (w : Workspace) (hw : w.Ready)
    (ht : w.code.Tidy) (hn : next < wordLimit) :
    Arranges (compound items next) w (Arranged Placed (Expr.ofItems? items) w next) := by
  match items with
  | [] =>
    rw [compound, Expr.ofItems?]
    exact arranges_literal ht hn _ _
  | head :: items =>
    rw [compound, Expr.ofItems?]
    have hkeyword : Arranges (keyword? head) w fun k w' => head.keyword? = k ∧ w = w' := by
      refine ⟨_, _, run_keyword? hw head, .refl w, ht, ?_⟩
      rintro _ ⟨⟩
      exact ⟨rfl, rfl⟩
    refine hkeyword.bind ?_
    rintro _ _ - - ⟨rfl, rfl⟩
    have hcall := arranges_call (arranges_form head) (arranges_arguments items) hw ht hn
    rcases head.keyword? with _ | k
    · exact hcall
    · cases k with
      | quote => exact arranges_quotation items ht hn
      | lambda => exact arranges_abstraction items next w hw ht hn
      | conditional => exact arranges_conditional items next w hw ht hn
      | assign => exact arranges_assignment false items next w hw ht hn
      | define => exact arranges_assignment true items next w hw ht hn
      | sequence =>
        refine (arranges_sequence items next w hw ht hn).imp ?_
        rintro start w' - ⟨hstart, es, tails, hes, h⟩
        dsimp only
        rw [hes]
        exact ⟨hstart, .sequence es, tails, rfl, fun hle hnext =>
          ⟨(h hle hnext).1, .sequence (h hle hnext).2⟩⟩
      | callCc => exact arranges_callCc (arranges_first items) hw ht hn
      | defineSyntax => exact hcall
      | ellipsis => exact hcall
      | underscore => exact hcall
      | invoke => exact hcall

theorem arranges_abstraction (items : List Form) (next : NodeId) (w : Workspace) (hw : w.Ready)
    (ht : w.code.Tidy) (hn : next < wordLimit) :
    Arranges (abstraction items next) w (Arranged Placed (Expr.ofAbstraction? items) w next) := by
  match items with
  | .list params :: body =>
    rw [abstraction, Expr.ofAbstraction?]
    refine (arranges_parameters params ht).bind ?_
    rintro ids w₁ hx₁ ht₁ ⟨⟨names, hnames⟩, hc₁⟩
    refine (arranges_emit .ret rfl ht₁ nofun).bind fun exit w₂ hx₂ ht₂ he₂ => ?_
    have hw₂ := hw.mono (hx₁.trans hx₂)
    refine (arranges_sequence body exit w₂ hw₂ ht₂ he₂.word).bind ?_
    rintro entry w₃ hx₃ ht₃ ⟨hentry, es, tails, hes, h₃⟩
    have hbody : w₃.code.size ≤ wordLimit → w₃.code.node? w.code.size = some .ret ∧
        PlacedAll w₃.code es (w.code.size + 1) w₃.code.size w.code.size entry tails := by
      intro hle
      have hexit := he₂.position (Nat.le_trans hx₃.code.size_le hle)
      obtain ⟨-, hp⟩ := h₃ hle (by rw [hexit, he₂.size]; exact Nat.lt_succ_self _)
      rw [hexit, he₂.size] at hp
      rw [hc₁]
      exact ⟨hx₃.code.node? he₂.node, hp⟩
    refine (arranges_emitClose ht₃ (hw₂.mono hx₃) hentry hn fun hlt => ?_).imp ?_
    · obtain ⟨hret, hp⟩ := hbody (Nat.le_of_lt hlt)
      exact ⟨es, w.code.size, tails, hret, _, hp⟩
    · rintro start w₄ hx₄ ⟨f, he₄⟩
      rw [hnames, hes]
      refine ⟨he₄.word, .lambda names es, [], rfl, fun hle _ => ?_⟩
      obtain ⟨hret, hp⟩ := hbody (Nat.le_trans hx₄.code.size_le hle)
      rw [he₄.position hle, he₄.size]
      exact ⟨Nat.lt_succ_self _,
        .lambda (hx₄.code.node? hret) (hp.mono hx₄.code) he₄.node⟩
  | [] => exact arranges_failure ht _
  | .int n :: _ => exact arranges_failure ht _
  | .atom name :: _ => exact arranges_failure ht _

theorem arranges_conditional (items : List Form) (next : NodeId) (w : Workspace) (hw : w.Ready)
    (ht : w.code.Tidy) (hn : next < wordLimit) :
    Arranges (conditional items next) w (Arranged Placed (Expr.ofConditional? items) w next) := by
  match items with
  | condition :: yes :: more =>
    rw [conditional, Expr.ofConditional?]
    refine (arranges_form yes next w hw ht hn).bind ?_
    rintro onTrue w₁ hx₁ ht₁ ⟨htrue, yesE, yesTails, hyes, h₁⟩
    refine (arranges_alternative more next w₁ (hw.mono hx₁) ht₁ hn).bind ?_
    rintro onFalse w₂ hx₂ ht₂ ⟨hfalse, noE, noTails, hno, h₂⟩
    have hwords : ∀ t ∈ (Node.test onTrue onFalse).successors, t < wordLimit := by
      simp only [Node.successors, List.mem_cons, List.not_mem_nil, or_false]
      rintro t (rfl | rfl)
      · exact htrue
      · exact hfalse
    refine (arranges_emit (.test onTrue onFalse) rfl ht₂ hwords).bind ?_
    intro test w₃ hx₃ ht₃ he₃
    have hw₃ := hw.mono (hx₁.trans (hx₂.trans hx₃))
    refine (arranges_form condition test w₃ hw₃ ht₃ he₃.word).imp ?_
    rintro start w₄ hx₄ ⟨hstart, conditionE, tails, hcondition, h₄⟩
    rw [hyes, hno, hcondition]
    refine ⟨hstart, .conditional conditionE yesE noE, yesTails ++ noTails, rfl, ?_⟩
    intro hle hnext
    have hle₃ := Nat.le_trans hx₄.code.size_le hle
    have hle₂ := Nat.le_trans hx₃.code.size_le hle₃
    have htest := he₃.position hle₃
    obtain ⟨-, hp₁⟩ := h₁ (Nat.le_trans hx₂.code.size_le hle₂) hnext
    obtain ⟨-, hp₂⟩ := h₂ hle₂ (Nat.lt_of_lt_of_le hnext hx₁.code.size_le)
    obtain ⟨hlt₄, hp₄⟩ := h₄ hle (by rw [htest, he₃.size]; exact Nat.lt_succ_self _)
    rw [htest, he₃.size] at hp₄
    have hx₃₄ := hx₃.trans hx₄
    exact ⟨hlt₄, .conditional (hp₁.mono (hx₂.trans hx₃₄).code) (hp₂.mono hx₃₄.code)
      (hx₄.code.node? he₃.node) hp₄⟩
  | [] => exact arranges_failure ht _
  | [_] => exact arranges_failure ht _

theorem arranges_assignment (declaring : Bool) (items : List Form) (next : NodeId) (w : Workspace)
    (hw : w.Ready) (ht : w.code.Tidy) (hn : next < wordLimit) :
    Arranges (assignment declaring items next) w
      (Arranged Placed (Expr.ofAssignment? (if declaring then .define else .assign) items) w
        next) := by
  match items with
  | .atom name :: more =>
    rw [assignment, Expr.ofAssignment?]
    refine (arranges_target declaring name ht).bind fun id w₁ hx₁ ht₁ hc₁ => ?_
    refine (arranges_emit (.assign id next) rfl ht₁ (words_single rfl hn)).bind ?_
    intro store w₂ hx₂ ht₂ he₂
    refine (arranges_first more store w₂ (hw.mono (hx₁.trans hx₂)) ht₂ he₂.word).imp ?_
    rintro start w₃ hx₃ ⟨hstart, e, tails, he, h₃⟩
    rw [he]
    refine ⟨hstart, _, [], rfl, ?_⟩
    intro hle _
    have hstore := he₂.position (Nat.le_trans hx₃.code.size_le hle)
    obtain ⟨hlt, hp⟩ := h₃ hle (by rw [hstore, he₂.size]; exact Nat.lt_succ_self _)
    rw [hstore, he₂.size] at hp
    have hnode := hx₃.code.node? he₂.node
    rw [hc₁]
    cases declaring with
    | false => exact ⟨hlt, .assign hnode hp⟩
    | true => exact ⟨hlt, .define hnode hp⟩
  | [] => exact arranges_failure ht _
  | .int n :: _ => exact arranges_failure ht _
  | .list items :: _ => exact arranges_failure ht _

theorem arranges_sequence (items : List Form) (next : NodeId) (w : Workspace) (hw : w.Ready)
    (ht : w.code.Tidy) (hn : next < wordLimit) :
    Arranges (sequence items next) w (Arranged PlacedAll (Expr.ofForms? items) w next) := by
  match items with
  | [] =>
    rw [sequence, Expr.ofForms?]
    exact arranges_pure ht ⟨hn, [], [], rfl, fun _ hnext => ⟨hnext, .nil⟩⟩
  | f :: rest =>
    rw [sequence, Expr.ofForms?]
    refine (arranges_sequence rest next w hw ht hn).bind ?_
    rintro after w₁ hx₁ ht₁ ⟨hafter, es, more, hes, h₁⟩
    refine (arranges_form f after w₁ (hw.mono hx₁) ht₁ hafter).imp ?_
    rintro start w₂ hx₂ ⟨hstart, e, tails, he, h₂⟩
    rw [hes, he]
    refine ⟨hstart, e :: es, if after = next then more ++ tails else more, rfl, ?_⟩
    intro hle hnext
    obtain ⟨hlt₁, hp₁⟩ := h₁ (Nat.le_trans hx₂.code.size_le hle) hnext
    obtain ⟨hlt₂, hp₂⟩ := h₂ hle hlt₁
    exact ⟨hlt₂, .cons (hp₁.mono hx₂.code) hp₂⟩

theorem arranges_arguments (items : List Form) (next : NodeId) (w : Workspace) (hw : w.Ready)
    (ht : w.code.Tidy) (hn : next < wordLimit) :
    Arranges (arguments items next) w (Arranged PlacedArgs (Expr.ofForms? items) w next) := by
  match items with
  | [] =>
    rw [arguments, Expr.ofForms?]
    exact arranges_pure ht ⟨hn, [], [], rfl, fun _ hnext => ⟨hnext, .nil⟩⟩
  | f :: rest =>
    rw [arguments, Expr.ofForms?]
    refine (arranges_arguments rest next w hw ht hn).bind ?_
    rintro after w₁ hx₁ ht₁ ⟨hafter, es, ids, hes, h₁⟩
    refine (arranges_emit (.argument after) rfl ht₁ (words_single rfl hafter)).bind ?_
    intro arg w₂ hx₂ ht₂ he₂
    refine (arranges_form f arg w₂ (hw.mono (hx₁.trans hx₂)) ht₂ he₂.word).imp ?_
    rintro start w₃ hx₃ ⟨hstart, e, tails, he, h₃⟩
    rw [hes, he]
    refine ⟨hstart, e :: es, w₁.code.size :: ids, rfl, fun hle hnext => ?_⟩
    have hle₂ := Nat.le_trans hx₃.code.size_le hle
    have harg := he₂.position hle₂
    obtain ⟨-, hp₁⟩ := h₁ (Nat.le_trans hx₂.code.size_le hle₂) hnext
    obtain ⟨hlt₃, hp₃⟩ := h₃ hle (by rw [harg, he₂.size]; exact Nat.lt_succ_self _)
    rw [harg, he₂.size] at hp₃
    exact ⟨hlt₃, .cons (hp₁.mono (hx₂.trans hx₃).code) (hx₃.code.node? he₂.node) hp₃⟩

theorem arranges_first (items : List Form) (next : NodeId) (w : Workspace) (hw : w.Ready)
    (ht : w.code.Tidy) (hn : next < wordLimit) :
    Arranges (first items next) w (Arranged Placed (Expr.ofFirst? items) w next) := by
  match items with
  | [] => exact arranges_failure ht _
  | f :: _ =>
    rw [first, Expr.ofFirst?]
    exact arranges_form f next w hw ht hn

theorem arranges_alternative (items : List Form) (next : NodeId) (w : Workspace) (hw : w.Ready)
    (ht : w.code.Tidy) (hn : next < wordLimit) :
    Arranges (alternative items next) w (Arranged Placed (Expr.ofAlternative? items) w next) := by
  match items with
  | [] =>
    rw [alternative, Expr.ofAlternative?]
    exact arranges_literal ht hn _ _
  | f :: _ =>
    rw [alternative, Expr.ofAlternative?]
    exact arranges_form f next w hw ht hn

end

/-- Lowering a text leaves tidy code, whether or not it succeeds, and the first instruction of all
halts. -/
theorem run_program_tidy (hw : w.Ready) (ht : w.code.Tidy)
    (ho : ∀ n, w.code.node? 0 = some n → n = .halt) (forms : List Form) :
    ((program forms).run w).2.code.Tidy ∧
      ∀ n, ((program forms).run w).2.code.node? 0 = some n → n = .halt := by
  obtain ⟨o, w₁, hrun₁, hx₁, ht₁, he₁⟩ := arranges_emit .halt rfl ht nofun
  obtain ⟨halt, rfl⟩ : ∃ halt, o = some halt :=
    ⟨_, (congrArg Prod.fst ((run_emit .halt w).symm.trans hrun₁)).symm⟩
  have hhalt := he₁ halt rfl
  have horigin : w₁.code.node? 0 = some .halt := by
    rcases Nat.eq_zero_or_pos w.code.size with hzero | hpos
    · exact hzero ▸ hhalt.node
    · obtain ⟨n, hn⟩ := Code.exists_node_of_lt hpos
      exact hx₁.code.node? (ho n hn ▸ hn)
  have hrest : ∀ {x : Lowering NodeId}, Arranges x w₁ (fun _ _ => True) →
      (x.run w₁).2.code.Tidy ∧ ∀ n, (x.run w₁).2.code.node? 0 = some n → n = .halt := by
    rintro x ⟨o, w₂, hrun₂, hx₂, ht₂, -⟩
    rw [hrun₂]
    exact ⟨ht₂, fun n hn => Option.some.inj (hn.symm.trans (hx₂.code.node? horigin))⟩
  unfold program
  rw [run_bind_of_some hrun₁]
  refine hrest ((arranges_sequence forms halt w₁ (hw.mono hx₁) ht₁ hhalt.word).bind ?_)
  intro entry w₂ hx₂ ht₂ _
  refine (arranges_get ht₂).bind ?_
  rintro _ _ - - ⟨rfl, rfl⟩
  split
  · exact arranges_failure ht₂ _
  · exact arranges_pure ht₂ trivial

end Lowering

end ClosureMachine
