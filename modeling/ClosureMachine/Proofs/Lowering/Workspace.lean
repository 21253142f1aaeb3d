import ClosureMachine.Lowering
import ClosureMachine.Proofs.Code.Validity
import ClosureMachine.Proofs.Meaning.Names

/-!
What lowering does to its workspace, whether it succeeds or stops on the way: symbols and code
grow, keywords stay, no instruction installs a control stack, and globals are at most declared
(`Workspace.Extends`). Lowering goes hand in hand with reading: `Lowering.Follows` says that one
succeeds where the other does, and what then holds of the two results.
-/

namespace ClosureMachine

namespace Workspace

structure Extends (w w' : Workspace) : Prop where
  symbols : w.symbols.Grows w'.symbols
  keywords : w'.keywords = w.keywords
  code : w.code.Grows w'.code
  /-- Every parameter list comes with an instruction. -/
  formals : w'.code.formals.size + w.code.size ≤ w.code.formals.size + w'.code.size
  installs : ∀ id stack var, w'.code.node? id = some (.nuate stack var) →
    w.code.node? id = some (.nuate stack var)
  bound : ∀ id v, w.globals.get? id = some v → w'.globals.get? id = some v
  declared : ∀ id v, (id, v) ∈ w'.globals.bindings → (id, v) ∈ w.globals.bindings ∨
    v = .unspecified ∧ ∃ name, w'.symbols.find? name = some id
  distinct : w.globals.Distinct → w'.globals.Distinct

theorem Extends.refl (w : Workspace) : w.Extends w where
  symbols := .refl _
  keywords := rfl
  code := .refl _
  formals := Nat.le_refl _
  installs _ _ _ h := h
  bound _ _ h := h
  declared _ _ h := .inl h
  distinct h := h

theorem Extends.trans {w w' w'' : Workspace} (h : w.Extends w') (h' : w'.Extends w'') :
    w.Extends w'' where
  symbols := h.symbols.trans h'.symbols
  keywords := h'.keywords.trans h.keywords
  code := h.code.trans h'.code
  formals := by
    have h1 := h.formals
    have h2 := h'.formals
    omega
  installs id stack var hn := h.installs id stack var (h'.installs id stack var hn)
  bound id v hv := h'.bound id v (h.bound id v hv)
  declared id v hv := by
    rcases h'.declared id v hv with hv | hv
    · rcases h.declared id v hv with hv | ⟨hv, name, hid⟩
      · exact .inl hv
      · exact .inr ⟨hv, name, h'.symbols.find? hid⟩
    · exact .inr hv
  distinct hd := h'.distinct (h.distinct hd)

theorem Extends.fits {w w' : Workspace} (hx : w.Extends w') (h : w.keywords.Fits w.symbols) :
    w'.keywords.Fits w'.symbols := by
  rw [hx.keywords]
  exact h.mono hx.symbols

/-- Ids do not run over, and keywords are known. -/
structure Ready (w : Workspace) : Prop where
  keywords : w.keywords.Fits w.symbols
  formals : w.code.formals.size ≤ w.code.size

theorem Ready.mono {w w' : Workspace} (h : w.Ready) (hx : w.Extends w') : w'.Ready where
  keywords := hx.fits h.keywords
  formals := by
    have h1 := h.formals
    have h2 := hx.formals
    omega

/-- The names have been made global, and nothing else has. -/
structure Declares (names : List String) (w w' : Workspace) : Prop where
  all : ∀ name ∈ names, ∃ id v, w'.symbols.find? name = some id ∧ w'.globals.get? id = some v
  fresh : ∀ id v, w'.globals.get? id = some v → w.globals.get? id = some v ∨
    v = .unspecified ∧ ∃ name ∈ names, w'.symbols.find? name = some id

theorem declares_of_same {w w' : Workspace} (h : w'.globals = w.globals) : Declares [] w w' where
  all := nofun
  fresh _ _ hv := .inl (h ▸ hv)

theorem Declares.append {names names' : List String} {w w' w'' : Workspace}
    (h : Declares names w w') (h' : Declares names' w' w'') (hx : w'.Extends w'') :
    Declares (names ++ names') w w'' where
  all name hname := by
    rcases List.mem_append.mp hname with hname | hname
    · obtain ⟨id, v, hid, hv⟩ := h.all name hname
      exact ⟨id, v, hx.symbols.find? hid, hx.bound id v hv⟩
    · exact h'.all name hname
  fresh id v hv := by
    rcases h'.fresh id v hv with hv | ⟨hv, name, hname, hid⟩
    · rcases h.fresh id v hv with hv | ⟨hv, name, hname, hid⟩
      · exact .inl hv
      · exact .inr ⟨hv, name, List.mem_append_left _ hname, hx.symbols.find? hid⟩
    · exact .inr ⟨hv, name, List.mem_append_right _ hname, hid⟩

end Workspace

namespace Lowering

variable {α β γ δ : Type}

/-! ## Running -/

theorem run_bind_of_some {x : Lowering α} {f : α → Lowering β} {w w' : Workspace} {a : α}
    (h : x.run w = (some a, w')) : (x >>= f).run w = (f a).run w' := by
  change (OptionT.bind x f).run w = _
  simp only [OptionT.bind, OptionT.run, OptionT.mk]
  change StateT.bind x _ w = _
  simp only [StateT.bind, show x w = (some a, w') from h]
  rfl

theorem run_bind_of_none {x : Lowering α} {f : α → Lowering β} {w w' : Workspace}
    (h : x.run w = (none, w')) : (x >>= f).run w = (none, w') := by
  change (OptionT.bind x f).run w = _
  simp only [OptionT.bind, OptionT.run, OptionT.mk]
  change StateT.bind x _ w = _
  simp only [StateT.bind, show x w = (none, w') from h]
  rfl

theorem run_emit (n : Node) (w : Workspace) :
    (emit n).run w = (some (w.code.append n).1, { w with code := (w.code.append n).2 }) := rfl

theorem run_emitClose (names : List SymbolId) (body next : NodeId) (w : Workspace) :
    (emitClose names body next).run w =
      (some (w.code.addClose names body next).1,
        { w with code := (w.code.addClose names body next).2 }) := rfl

theorem run_symbol (name : String) (w : Workspace) :
    (symbol name).run w =
      (some (w.symbols.intern name).1, { w with symbols := (w.symbols.intern name).2 }) := rfl

theorem run_declare (id : SymbolId) (w : Workspace) :
    (declare id).run w =
      (some (),
        if w.globals.contains id then w
        else { w with globals := w.globals.define id .unspecified }) := rfl

/-! ## Reading and lowering -/

/-- Lowering succeeds if reading does, and then the results are related by `R`; if reading fails, so
does lowering. -/
def Follows (x : Lowering α) (o : Option β) (w : Workspace) (R : β → α → Workspace → Prop) : Prop :=
  match o with
  | some b => ∃ a w', x.run w = (some a, w') ∧ w.Extends w' ∧ R b a w'
  | none => ∃ w', x.run w = (none, w') ∧ w.Extends w'

variable {x : Lowering α} {o : Option β} {w : Workspace} {R : β → α → Workspace → Prop}

theorem Follows.bind (h : Follows x o w R) {f : α → Lowering γ} {g : β → Option δ}
    {S : δ → γ → Workspace → Prop}
    (hf : ∀ b a w', w.Extends w' → R b a w' → Follows (f a) (g b) w' S) :
    Follows (x >>= f) (o >>= g) w S := by
  cases o with
  | none =>
    obtain ⟨w', hx, he⟩ := h
    exact ⟨w', run_bind_of_none hx, he⟩
  | some b =>
    obtain ⟨a, w', hx, he, hr⟩ := h
    have hrest := hf b a w' he hr
    change Follows (x >>= f) (g b) w S
    cases hg : g b with
    | none =>
      rw [hg] at hrest
      obtain ⟨w'', hx', he'⟩ := hrest
      exact ⟨w'', (run_bind_of_some hx).trans hx', he.trans he'⟩
    | some d =>
      rw [hg] at hrest
      obtain ⟨c, w'', hx', he', hs⟩ := hrest
      exact ⟨c, w'', (run_bind_of_some hx).trans hx', he.trans he', hs⟩

/-- A step of lowering that reading does not have. -/
theorem Follows.after {S : β → γ → Workspace → Prop} {a : α} {w' : Workspace}
    (hx : x.run w = (some a, w')) (he : w.Extends w') {f : α → Lowering γ}
    (h : Follows (f a) o w' S) : Follows (x >>= f) o w S := by
  have hx : Follows x (some ()) w fun _ a' w'' => a' = a ∧ w'' = w' := ⟨a, w', hx, he, rfl, rfl⟩
  refine hx.bind (g := fun _ => o) ?_
  rintro - _ _ - ⟨rfl, rfl⟩
  exact h

theorem Follows.imp (h : Follows x o w R) {f : β → δ} {S : δ → α → Workspace → Prop}
    (hs : ∀ b a w', w.Extends w' → R b a w' → S (f b) a w') :
    Follows x (o >>= fun b => pure (f b)) w S := by
  cases o with
  | none => exact h
  | some b =>
    obtain ⟨a, w', hx, he, hr⟩ := h
    exact ⟨a, w', hx, he, hs b a w' he hr⟩

/-- Work that reading has nothing to do with, at the end. -/
theorem Follows.conclude {b : β} (h : Follows x (some b) w R) {d : δ}
    {S : δ → α → Workspace → Prop} (hs : ∀ a w', w.Extends w' → R b a w' → S d a w') :
    Follows x (some d) w S := by
  obtain ⟨a, w', hx, he, hr⟩ := h
  exact ⟨a, w', hx, he, hs a w' he hr⟩

theorem follows_failure (w : Workspace) (R : β → α → Workspace → Prop) :
    Follows (failure : Lowering α) none w R := ⟨w, rfl, .refl w⟩

theorem follows_pure {b : β} {a : α} (h : R b a w) : Follows (pure a) (some b) w R :=
  ⟨a, w, rfl, .refl w, h⟩

end Lowering

end ClosureMachine
