import ClosureMachine.Proofs.Lowering.Correct

/-!
Lowering declares only what the text defines, whether it succeeds or stops on the way. Which of the
definitions of a refused text have been reached depends on where lowering stops, but every name that
is newly global has one (`run_program_confined`).
-/

namespace ClosureMachine

open Workspace

/-! ## Definitions in forms -/

/-- The name that a list defines, if it is a definition. -/
def Form.definition : List Form → List String
  | head :: .atom name :: _ => if head.keyword? = some .define then [name] else []
  | _ => []

mutual

/-- The names that have a definition somewhere in the form. -/
def Form.definitions : Form → List String
  | .list items => definition items ++ definitionsAll items
  | _ => []

def Form.definitionsAll : List Form → List String
  | [] => []
  | f :: fs => f.definitions ++ definitionsAll fs

end

namespace Lowering

variable {α β : Type} {names : List String}

/-- Whether the work succeeds or stops, what becomes global is among the names. -/
def Confined (names : List String) (x : Lowering α) : Prop :=
  ∀ w, w.Ready → ∃ o w', x.run w = (o, w') ∧ w.Extends w' ∧
    ∃ declared, declared ⊆ names ∧ w.Declares declared w'

theorem Confined.bind {x : Lowering α} {f : α → Lowering β} (h : Confined names x)
    (hf : ∀ a, Confined names (f a)) : Confined names (x >>= f) := by
  intro w hw
  obtain ⟨o, w₁, hrun, hx, declared, hsub, hd⟩ := h w hw
  cases o with
  | none => exact ⟨none, w₁, run_bind_of_none hrun, hx, declared, hsub, hd⟩
  | some a =>
    obtain ⟨o, w₂, hrun₂, hx₂, declared₂, hsub₂, hd₂⟩ := hf a w₁ (hw.mono hx)
    exact ⟨o, w₂, (run_bind_of_some hrun).trans hrun₂, hx.trans hx₂, declared ++ declared₂,
      List.append_subset.mpr ⟨hsub, hsub₂⟩, hd.append hd₂ hx₂⟩

theorem confined_failure : Confined names (failure : Lowering α) := fun w _ =>
  ⟨none, w, rfl, .refl w, [], List.nil_subset _, declares_of_same rfl⟩

theorem confined_pure (a : α) : Confined names (pure a : Lowering α) := fun w _ =>
  ⟨some a, w, rfl, .refl w, [], List.nil_subset _, declares_of_same rfl⟩

theorem confined_get {f : Workspace → Lowering α} (h : ∀ w, Confined names (f w)) :
    Confined names (get >>= f) := fun w hw => by
  rw [run_bind_of_some (show (get : Lowering Workspace).run w = (some w, w) from rfl)]
  exact h w w hw

theorem confined_emit (n : Node) (hn : ∀ stack var, n ≠ .nuate stack var) :
    Confined names (emit n) := fun w _ => by
  obtain ⟨id, w', hrun, hx, hadds⟩ := emit_adds n hn w
  exact ⟨some id, w', hrun, hx, [], List.nil_subset _, hadds.declares⟩

theorem confined_emitClose (ids : List SymbolId) (body next : NodeId) :
    Confined names (emitClose ids body next) := fun w _ =>
  ⟨_, _, run_emitClose ids body next w, extends_addClose ids body next w, [], List.nil_subset _,
    declares_of_same rfl⟩

theorem confined_symbol (name : String) : Confined names (symbol name) := fun w _ =>
  ⟨_, _, run_symbol name w, extends_symbol name w, [], List.nil_subset _, declares_of_same rfl⟩

theorem confined_target (declaring : Bool) (name : String)
    (h : declaring = true → name ∈ names) : Confined names (target declaring name) := fun w _ => by
  obtain ⟨id, w', hrun, hx, -, hl⟩ := follows_target declaring name w
  refine ⟨some id, w', hrun, hx, _, ?_, hl.declares⟩
  split
  · next hdeclaring => simpa using h hdeclaring
  · exact List.nil_subset _

theorem confined_bracket (start next : NodeId) : Confined names (bracket start next) := by
  refine confined_get fun w => ?_
  split
  · exact confined_pure start
  · exact confined_emit _ nofun

theorem confined_parameters (params : List Form) : Confined names (parameters params) := by
  induction params with
  | nil => exact confined_pure []
  | cons f rest ih =>
    cases f with
    | atom name => exact (confined_symbol name).bind fun id => ih.bind fun ids => confined_pure _
    | int n => exact confined_failure
    | list items => exact confined_failure

theorem confined_quotation (items : List Form) (next : NodeId) :
    Confined names (quotation items next) := by
  cases items with
  | nil => exact confined_failure
  | cons datum rest =>
    refine Confined.bind ?_ fun v => confined_emit _ nofun
    cases datum with
    | int n => exact confined_pure _
    | atom name => exact (confined_symbol name).bind fun id => confined_pure _
    | list items => exact confined_pure _

/-- What follows on the recognition of a keyword. -/
theorem confined_keyword {head : Form} {f : Option Keyword → Lowering α}
    (h : Confined names (f head.keyword?)) : Confined names (keyword? head >>= f) := fun w hw => by
  rw [run_bind_of_some (run_keyword? hw head)]
  exact h w hw

mutual

theorem confined_form (f : Form) (h : f.definitions ⊆ names) (next : NodeId) :
    Confined names (form f next) := by
  match f with
  | .int n =>
    rw [form]
    exact confined_emit _ nofun
  | .atom name =>
    rw [form]
    split
    · exact confined_emit _ nofun
    · split
      · exact confined_emit _ nofun
      · exact (confined_symbol name).bind fun id => confined_emit _ nofun
  | .list items =>
    rw [form]
    obtain ⟨hhead, hitems⟩ := List.append_subset.mp h
    exact confined_compound items hhead hitems next

theorem confined_compound (items : List Form) (hdef : Form.definition items ⊆ names)
    (h : Form.definitionsAll items ⊆ names) (next : NodeId) :
    Confined names (compound items next) := by
  match items with
  | [] =>
    rw [compound]
    exact confined_emit _ nofun
  | head :: items =>
    rw [compound]
    obtain ⟨hhead, hitems⟩ := List.append_subset.mp h
    have hcall : Confined names (do
        let call ← emit .apply
        bracket (← arguments items (← form head call)) next) :=
      (confined_emit .apply nofun).bind fun call => (confined_form head hhead call).bind
        fun callee => (confined_arguments items hitems callee).bind fun inner =>
          confined_bracket inner next
    refine confined_keyword ?_
    rcases hkey : head.keyword? with _ | k
    · exact hcall
    · cases k with
      | quote => exact confined_quotation items next
      | lambda => exact confined_abstraction items hitems next
      | conditional => exact confined_conditional items hitems next
      | assign => exact confined_assignment false items hitems nofun next
      | define =>
        refine confined_assignment true items hitems ?_ next
        rintro - name more rfl
        refine hdef ?_
        rw [Form.definition, if_pos hkey]
        exact List.mem_singleton_self name
      | sequence => exact confined_sequence items hitems next
      | callCc =>
        exact (confined_emit .apply nofun).bind fun call =>
          (confined_first items hitems call).bind fun callee =>
            (confined_emit (.argument callee) nofun).bind fun arg =>
              (confined_emit (.conti arg) nofun).bind fun inner => confined_bracket inner next
      | defineSyntax => exact hcall
      | ellipsis => exact hcall
      | underscore => exact hcall
      | invoke => exact hcall

theorem confined_abstraction (items : List Form) (h : Form.definitionsAll items ⊆ names)
    (next : NodeId) : Confined names (abstraction items next) := by
  match items with
  | .list params :: body =>
    rw [abstraction]
    obtain ⟨-, hbody⟩ := List.append_subset.mp h
    exact (confined_parameters params).bind fun ids => (confined_emit .ret nofun).bind fun exit =>
      (confined_sequence body hbody exit).bind fun start => confined_emitClose ids start next
  | [] => exact confined_failure
  | .int n :: _ => exact confined_failure
  | .atom name :: _ => exact confined_failure

theorem confined_conditional (items : List Form) (h : Form.definitionsAll items ⊆ names)
    (next : NodeId) : Confined names (conditional items next) := by
  match items with
  | condition :: yes :: more =>
    rw [conditional]
    obtain ⟨hcondition, h⟩ := List.append_subset.mp h
    obtain ⟨hyes, hmore⟩ := List.append_subset.mp h
    exact (confined_form yes hyes next).bind fun onTrue =>
      (confined_alternative more hmore next).bind fun onFalse =>
        (confined_emit (.test onTrue onFalse) nofun).bind fun test =>
          confined_form condition hcondition test
  | [] => exact confined_failure
  | [_] => exact confined_failure

theorem confined_assignment (declaring : Bool) (items : List Form)
    (h : Form.definitionsAll items ⊆ names)
    (hname : declaring = true → ∀ name more, items = .atom name :: more → name ∈ names)
    (next : NodeId) : Confined names (assignment declaring items next) := by
  match items with
  | .atom name :: more =>
    rw [assignment]
    exact (confined_target declaring name fun hd => hname hd name more rfl).bind fun id =>
      (confined_emit (.assign id next) nofun).bind fun store => confined_first more h store
  | [] => exact confined_failure
  | .int n :: _ => exact confined_failure
  | .list items :: _ => exact confined_failure

theorem confined_sequence (items : List Form) (h : Form.definitionsAll items ⊆ names)
    (next : NodeId) : Confined names (sequence items next) := by
  match items with
  | [] =>
    rw [sequence]
    exact confined_pure next
  | f :: rest =>
    rw [sequence]
    obtain ⟨hf, hrest⟩ := List.append_subset.mp h
    exact (confined_sequence rest hrest next).bind fun after => confined_form f hf after

theorem confined_arguments (items : List Form) (h : Form.definitionsAll items ⊆ names)
    (next : NodeId) : Confined names (arguments items next) := by
  match items with
  | [] =>
    rw [arguments]
    exact confined_pure next
  | f :: rest =>
    rw [arguments]
    obtain ⟨hf, hrest⟩ := List.append_subset.mp h
    exact (confined_arguments rest hrest next).bind fun after =>
      (confined_emit (.argument after) nofun).bind fun arg => confined_form f hf arg

theorem confined_first (items : List Form) (h : Form.definitionsAll items ⊆ names)
    (next : NodeId) : Confined names (first items next) := by
  match items with
  | [] => exact confined_failure
  | f :: _ =>
    rw [first]
    exact confined_form f (List.append_subset.mp h).1 next

theorem confined_alternative (items : List Form) (h : Form.definitionsAll items ⊆ names)
    (next : NodeId) : Confined names (alternative items next) := by
  match items with
  | [] =>
    rw [alternative]
    exact confined_emit _ nofun
  | f :: _ =>
    rw [alternative]
    exact confined_form f (List.append_subset.mp h).1 next

end

/-- A text declares only names that have a definition in it. -/
theorem run_program_confined (forms : List Form) :
    Confined (Form.definitionsAll forms) (program forms) := by
  refine (confined_emit .halt nofun).bind fun halt =>
    (confined_sequence forms (List.Subset.refl _) halt).bind fun entry => confined_get fun w => ?_
  split
  · exact confined_failure
  · exact confined_pure entry

end Lowering

end ClosureMachine
