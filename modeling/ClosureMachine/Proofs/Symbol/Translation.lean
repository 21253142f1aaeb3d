import ClosureMachine.Proofs.Meaning.Names
import Mathlib.Logic.Function.Basic

/-!
Ids of one symbol table in terms of another. `Translates t t' σ` says that `σ` takes the id of a
spelling in `t` to its id in `t'`, wherever both have one; ids that have no counterpart may go
anywhere, as long as no two ids become one. The larger the tables, the fewer translations there are
(`Translates.anti`).

There are always several (`translates_translation`), and they agree on those ids only that have a
counterpart (`exists_spelling`). So what is the same under all translations depends on spellings and
on nothing else.
-/

namespace ClosureMachine

namespace SymbolTable

variable {t t' u u' : SymbolTable} {s : String} {id id' : SymbolId} {σ : SymbolId → SymbolId}

theorem name?_of_find? (h : t.find? s = some id) : t.name? id = some s := by
  rw [find?_eq, List.idxOf?_eq_some_iff] at h
  obtain ⟨hlt, hs, -⟩ := h
  rw [name?, ← Array.getElem?_toList, List.getElem?_eq_some_iff]
  exact ⟨hlt, hs⟩

theorem lt_size_of_find? (h : t.find? s = some id) : id < t.size :=
  (Array.getElem?_eq_some_iff.mp (name?_of_find? h)).1

/-- The spelling whose id is `id`. -/
def owner? (t : SymbolTable) (id : SymbolId) : Option String :=
  (t.name? id).filter fun s => t.find? s == some id

theorem owner?_eq_some_iff : t.owner? id = some s ↔ t.find? s = some id := by
  rw [owner?, Option.filter_eq_some_iff, beq_iff_eq]
  exact ⟨fun h => h.2, fun h => ⟨name?_of_find? h, h⟩⟩

/-- `σ` takes ids of `t` to ids of `t'`. -/
structure Translates (t t' : SymbolTable) (σ : SymbolId → SymbolId) : Prop where
  injective : Function.Injective σ
  find? : ∀ (s : String) (id id' : SymbolId),
    t.find? s = some id → t'.find? s = some id' → σ id = id'

theorem Translates.anti (h : u.Translates u' σ) (hg : t.Grows u) (hg' : t'.Grows u') :
    t.Translates t' σ where
  injective := h.injective
  find? s id id' hs hs' := h.find? s id id' (hg.find? hs) (hg'.find? hs')

/-- The counterpart of an id; one that has none goes beyond all ids of `t'`, by `k` more than it
must. -/
def translation (t t' : SymbolTable) (k : Nat) (id : SymbolId) : SymbolId :=
  ((t.owner? id).bind t'.find?).getD (t'.size + (k + id))

theorem counterpart_eq_some_iff :
    (t.owner? id).bind t'.find? = some id' ↔
      ∃ s, t.find? s = some id ∧ t'.find? s = some id' := by
  simp only [Option.bind_eq_some_iff, owner?_eq_some_iff]

theorem counterpart_ne (h : (t.owner? id).bind t'.find? = some id') {n : Nat} :
    id' ≠ t'.size + n := by
  obtain ⟨s, -, hs'⟩ := counterpart_eq_some_iff.mp h
  exact Nat.ne_of_lt (Nat.lt_of_lt_of_le (lt_size_of_find? hs') (Nat.le_add_right ..))

theorem translates_translation (t t' : SymbolTable) (k : Nat) :
    t.Translates t' (translation t t' k) where
  injective := by
    intro a b hab
    simp only [translation] at hab
    cases ha : (t.owner? a).bind t'.find? with
    | none =>
      cases hb : (t.owner? b).bind t'.find? with
      | none =>
        rw [ha, hb, Option.getD_none, Option.getD_none] at hab
        exact Nat.add_left_cancel (Nat.add_left_cancel hab)
      | some b' =>
        rw [ha, hb, Option.getD_none, Option.getD_some] at hab
        exact absurd hab.symm (counterpart_ne hb)
    | some a' =>
      obtain ⟨s, hs, hs'⟩ := counterpart_eq_some_iff.mp ha
      cases hb : (t.owner? b).bind t'.find? with
      | none =>
        rw [ha, hb, Option.getD_none, Option.getD_some] at hab
        exact absurd hab (counterpart_ne ha)
      | some b' =>
        obtain ⟨r, hr, hr'⟩ := counterpart_eq_some_iff.mp hb
        rw [ha, hb, Option.getD_some, Option.getD_some] at hab
        subst hab
        obtain rfl := find?_inj hs' hr'
        exact Option.some.inj (hs.symm.trans hr)
  find? s id id' hs hs' := by
    rw [translation, counterpart_eq_some_iff.mpr ⟨s, hs, hs'⟩, Option.getD_some]

/-- An id that all translations take to the same one has a spelling in both tables. -/
theorem exists_spelling (h : ∀ σ, t.Translates t' σ → id' = σ id) :
    ∃ s, t.find? s = some id ∧ t'.find? s = some id' := by
  have h₀ := h _ (translates_translation t t' 0)
  have h₁ := h _ (translates_translation t t' 1)
  rw [translation] at h₀ h₁
  cases hid : (t.owner? id).bind t'.find? with
  | some j =>
    rw [hid, Option.getD_some] at h₀
    subst h₀
    exact counterpart_eq_some_iff.mp hid
  | none =>
    rw [hid, Option.getD_none] at h₀ h₁
    have hsame : 0 + id = 1 + id := Nat.add_left_cancel (h₀.symm.trans h₁)
    exact absurd (Nat.add_right_cancel hsame) Nat.zero_ne_one

/-- Such an id is spelled the same in both tables. -/
theorem name?_translated (h : ∀ σ, t.Translates t' σ → id' = σ id) :
    t'.name? id' = t.name? id := by
  obtain ⟨s, hs, hs'⟩ := exists_spelling h
  rw [name?_of_find? hs, name?_of_find? hs']

theorem display_translated (h : ∀ σ, t.Translates t' σ → id' = σ id) :
    t'.display id' = t.display id := by
  obtain ⟨s, hs, hs'⟩ := exists_spelling h
  rw [display, display, name?_of_find? hs, name?_of_find? hs', Option.getD_some, Option.getD_some]

end SymbolTable

end ClosureMachine
