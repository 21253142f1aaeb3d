import ClosureMachine.Proofs.Code.Growth
import ClosureMachine.Proofs.Meaning.Expr
import ClosureMachine.Proofs.Meaning.Names

/-!
What it means that code implements an expression, without looking at how it was made: the
instructions from `start` on evaluate the expression and go on at `next`. A call has a frame around
it, unless what follows is a return. Code that implements an expression goes on implementing it when
code and symbol table grow (`Compiled.mono`), and it does not begin with a return itself
(`Compiled.not_ret`).
-/

namespace ClosureMachine

/-- The value that a constant is carried as. -/
def Datum.Encodes (t : SymbolTable) : Datum → Value → Prop
  | .nil, .nil => True
  | .bool b, .bool b' => b = b'
  | .int n, .int n' => n = n'
  | .symbol name, .symbol id => t.find? name = some id
  | .unspecified, .unspecified => True
  | _, _ => False

theorem Datum.Encodes.mono {t t' : SymbolTable} (hg : t.Grows t') {d : Datum} {v : Value}
    (h : d.Encodes t v) : d.Encodes t' v := by
  cases d <;> cases v <;> first | exact h | exact hg.find? h

/-- From `start` on there is the call at `inner`, with a frame around it unless `next` returns. -/
def Code.Brackets (c : Code) (inner next start : NodeId) : Prop :=
  (c.node? next = some .ret ∧ start = inner) ∨ c.node? start = some (.frame next inner)

mutual

inductive Compiled (t : SymbolTable) (c : Code) : Expr → NodeId → NodeId → Prop
  | literal {d : Datum} {v : Value} {next start : NodeId} : d.Encodes t v →
    c.node? start = some (.constant v next) → Compiled t c (.literal d) next start
  | variable {name : String} {id : SymbolId} {next start : NodeId} : t.find? name = some id →
    c.node? start = some (.refer id next) → Compiled t c (.variable name) next start
  | lambda {params : List String} {ids : List SymbolId} {f : FormalsId} {body : List Expr}
    {exit entry next start : NodeId} : t.Spells params ids → c.formals? f = some ids →
    c.node? exit = some .ret → CompiledAll t c body exit entry →
    c.node? start = some (.close f entry next) → Compiled t c (.lambda params body) next start
  | conditional {condition yes no : Expr} {onTrue onFalse test next start : NodeId} :
    Compiled t c yes next onTrue → Compiled t c no next onFalse →
    c.node? test = some (.test onTrue onFalse) → Compiled t c condition test start →
    Compiled t c (.conditional condition yes no) next start
  | assign {name : String} {id : SymbolId} {e : Expr} {store next start : NodeId} :
    t.find? name = some id → c.node? store = some (.assign id next) → Compiled t c e store start →
    Compiled t c (.assign name e) next start
  | define {name : String} {id : SymbolId} {e : Expr} {store next start : NodeId} :
    t.find? name = some id → c.node? store = some (.assign id next) → Compiled t c e store start →
    Compiled t c (.define name e) next start
  | sequence {es : List Expr} {next start : NodeId} : CompiledAll t c es next start →
    Compiled t c (.sequence es) next start
  | callCc {e : Expr} {call callee arg inner next start : NodeId} :
    c.node? call = some .apply → Compiled t c e call callee →
    c.node? arg = some (.argument callee) → c.node? inner = some (.conti arg) →
    c.Brackets inner next start → Compiled t c (.callCc e) next start
  | call {operator : Expr} {args : List Expr} {call callee inner next start : NodeId} :
    c.node? call = some .apply → Compiled t c operator call callee →
    CompiledArgs t c args callee inner → c.Brackets inner next start →
    Compiled t c (.call operator args) next start

/-- Expressions that are evaluated one after the other. -/
inductive CompiledAll (t : SymbolTable) (c : Code) : List Expr → NodeId → NodeId → Prop
  | nil {next : NodeId} : CompiledAll t c [] next next
  | cons {e : Expr} {es : List Expr} {rest next start : NodeId} : CompiledAll t c es next rest →
    Compiled t c e rest start → CompiledAll t c (e :: es) next start

/-- Expressions whose values are collected as arguments. -/
inductive CompiledArgs (t : SymbolTable) (c : Code) : List Expr → NodeId → NodeId → Prop
  | nil {next : NodeId} : CompiledArgs t c [] next next
  | cons {e : Expr} {es : List Expr} {rest arg next start : NodeId} :
    CompiledArgs t c es next rest → c.node? arg = some (.argument rest) →
    Compiled t c e arg start → CompiledArgs t c (e :: es) next start

end

section Mono

variable {t t' : SymbolTable} {c c' : Code}

theorem Code.Brackets.mono (hc : c.Grows c') {inner next start : NodeId}
    (h : c.Brackets inner next start) : c'.Brackets inner next start := by
  rcases h with ⟨hret, rfl⟩ | hframe
  · exact .inl ⟨hc.node? hret, rfl⟩
  · exact .inr (hc.node? hframe)

mutual

theorem Compiled.mono (ht : t.Grows t') (hc : c.Grows c') {e : Expr} {next start : NodeId} :
    Compiled t c e next start → Compiled t' c' e next start
  | .literal hd hn => .literal (hd.mono ht) (hc.node? hn)
  | .variable hid hn => .variable (ht.find? hid) (hc.node? hn)
  | .lambda hs hf hret hb hn =>
    .lambda (hs.mono ht) (hc.formals? hf) (hc.node? hret) (hb.mono ht hc) (hc.node? hn)
  | .conditional hyes hno hn h =>
    .conditional (hyes.mono ht hc) (hno.mono ht hc) (hc.node? hn) (h.mono ht hc)
  | .assign hid hn h => .assign (ht.find? hid) (hc.node? hn) (h.mono ht hc)
  | .define hid hn h => .define (ht.find? hid) (hc.node? hn) (h.mono ht hc)
  | .sequence h => .sequence (h.mono ht hc)
  | .callCc hcall h harg hn hb =>
    .callCc (hc.node? hcall) (h.mono ht hc) (hc.node? harg) (hc.node? hn) (hb.mono hc)
  | .call hcall h hargs hb =>
    .call (hc.node? hcall) (h.mono ht hc) (hargs.mono ht hc) (hb.mono hc)

theorem CompiledAll.mono (ht : t.Grows t') (hc : c.Grows c') {es : List Expr}
    {next start : NodeId} : CompiledAll t c es next start → CompiledAll t' c' es next start
  | .nil => .nil
  | .cons hrest h => .cons (hrest.mono ht hc) (h.mono ht hc)

theorem CompiledArgs.mono (ht : t.Grows t') (hc : c.Grows c') {es : List Expr}
    {next start : NodeId} : CompiledArgs t c es next start → CompiledArgs t' c' es next start
  | .nil => .nil
  | .cons hrest hn h => .cons (hrest.mono ht hc) (hc.node? hn) (h.mono ht hc)

end

end Mono

mutual

/-- An expression does not begin with a return. -/
theorem Compiled.not_ret {t : SymbolTable} {c : Code} {e : Expr} {next start : NodeId} :
    Compiled t c e next start → e.isProper = true → c.node? start ≠ some .ret
  | .literal _ hn, _ | .variable _ hn, _ | .lambda _ _ _ _ hn, _ => by rw [hn]; nofun
  | .conditional _ _ _ h, hp => by
    simp only [Expr.isProper, Bool.and_eq_true] at hp
    exact h.not_ret hp.1.1
  | .assign _ _ h, hp | .define _ _ h, hp => h.not_ret hp
  | .sequence h, hp => by
    simp only [Expr.isProper, Bool.and_eq_true, Bool.not_eq_true', List.isEmpty_eq_false_iff] at hp
    exact h.not_ret hp.1 hp.2
  | .callCc _ _ _ hn hb, _ => by
    rcases hb with ⟨-, rfl⟩ | hframe
    · rw [hn]
      nofun
    · rw [hframe]
      nofun
  | .call _ ho ha hb, hp => by
    simp only [Expr.isProper, Bool.and_eq_true] at hp
    rcases hb with ⟨-, rfl⟩ | hframe
    · exact ha.not_ret hp.2 (ho.not_ret hp.1)
    · rw [hframe]
      nofun

theorem CompiledAll.not_ret {t : SymbolTable} {c : Code} {es : List Expr}
    {next start : NodeId} : CompiledAll t c es next start → es ≠ [] → Expr.areProper es = true →
    c.node? start ≠ some .ret
  | .nil, hne, _ => absurd rfl hne
  | .cons _ h, _, hp => by
    simp only [Expr.areProper, Bool.and_eq_true] at hp
    exact h.not_ret hp.1

theorem CompiledArgs.not_ret {t : SymbolTable} {c : Code} {es : List Expr}
    {next start : NodeId} : CompiledArgs t c es next start → Expr.areProper es = true →
    c.node? next ≠ some .ret → c.node? start ≠ some .ret
  | .nil, _, h => h
  | .cons _ _ h, hp, _ => by
    simp only [Expr.areProper, Bool.and_eq_true] at hp
    exact h.not_ret hp.1

end

end ClosureMachine
