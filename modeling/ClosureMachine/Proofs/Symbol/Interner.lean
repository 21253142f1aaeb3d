import ClosureMachine.Interner
import ClosureMachine.Proofs.Symbol.Calls
import Std.Data.HashMap.Lemmas

/-!
The interner refines the symbol table. Its vector and its hash map undo each other
(`Interner.Inverse`), at first and after whatever is interned (`Inverse.intern`). So the hash map
finds exactly what a search through the vector would (`Inverse.find?_table`), and every request is
answered as the symbol table answers it, but for one: a new spelling is refused when all ids are
given out (`Inverse.ask_cases`).
-/

namespace ClosureMachine

namespace Interner

open SymbolTable (Request)

variable {t t' : Interner}

/-- The vector and the hash map undo each other. -/
def Inverse (t : Interner) : Prop := ∀ s id, t.find? s = some id ↔ t.name? id = some s

theorem inverse_empty : ({} : Interner).Inverse := by
  intro s id
  simp [find?, name?]

/-! ## Interning -/

theorem intern_of_find? {s : String} {id : SymbolId} (h : t.find? s = some id) :
    t.intern s = (.ok id, t) := by
  simp [intern, h]

theorem intern_of_room {s : String} (h : t.find? s = none) (hroom : t.size < wordLimit) :
    t.intern s =
      (.ok t.size, { strings := t.strings.push s, lookup := t.lookup.insert s t.size }) := by
  simp [intern, h, hroom]

theorem intern_of_full {s : String} (h : t.find? s = none) (hfull : wordLimit ≤ t.size) :
    t.intern s = (.error {}, t) := by
  simp [intern, h, Nat.not_lt.mpr hfull]

/-- A new spelling takes the next place in the vector, and the hash map leads there. -/
theorem Inverse.insert (h : t.Inverse) {s : String} (hs : t.find? s = none) :
    ({ strings := t.strings.push s, lookup := t.lookup.insert s t.size } : Interner).Inverse := by
  intro s' id
  simp only [find?, name?, Std.HashMap.getElem?_insert, beq_iff_eq, Array.getElem?_push]
  have hold : t.lookup[s']? = some id ↔ t.strings[id]? = some s' := h s' id
  by_cases hsame : s = s'
  · subst hsame
    have hnone : t.lookup[s]? = none := hs
    rw [hnone] at hold
    simp only [↓reduceIte, size, Option.some.injEq, eq_comm (a := id)]
    split
    · next hid => simp [hid]
    · next hid => simp [hid, ← hold]
  · rw [if_neg hsame, hold]
    split
    · next hid => simp [hid, hsame]
    · rfl

theorem Inverse.intern (h : t.Inverse) (s : String) : (t.intern s).2.Inverse := by
  cases hs : t.find? s with
  | some id => rwa [intern_of_find? hs]
  | none =>
    rcases Nat.lt_or_ge t.size wordLimit with hroom | hfull
    · rw [intern_of_room hs hroom]
      exact h.insert hs
    · rwa [intern_of_full hs hfull]

theorem size_intern_le (hsize : t.size ≤ wordLimit) (s : String) :
    (t.intern s).2.size ≤ wordLimit := by
  cases hs : t.find? s with
  | some id => rwa [intern_of_find? hs]
  | none =>
    rcases Nat.lt_or_ge t.size wordLimit with hroom | hfull
    · rw [intern_of_room hs hroom]
      change (t.strings.push s).size ≤ wordLimit
      rw [Array.size_push]
      exact hroom
    · rwa [intern_of_full hs hfull]

/-! ## The symbol table that is kept -/

theorem Inverse.distinct (h : t.Inverse) : t.table.Distinct := by
  rw [SymbolTable.Distinct, List.nodup_iff_injective_get]
  intro i j hij
  have hplace : ∀ k : Fin t.strings.toList.length,
      t.find? (t.strings.toList.get k) = some k.val := by
    intro k
    refine (h _ _).mpr ?_
    rw [name?, ← Array.getElem?_toList, List.getElem?_eq_getElem k.isLt, List.get_eq_getElem]
  have hi := hplace i
  have hj := hplace j
  have hij : t.strings.toList.get i = t.strings.toList.get j := hij
  rw [hij, hj] at hi
  exact Fin.ext (Option.some.inj hi).symm

/-- Looking a spelling up gives what a search through the vector does. -/
theorem Inverse.find?_table (h : t.Inverse) (s : String) : t.table.find? s = t.find? s := by
  refine Option.ext fun id => ?_
  rw [← SymbolTable.name?_eq_some_iff h.distinct, h]
  rfl

theorem Inverse.intern_table (h : t.Inverse) {s : String}
    (hroom : t.find? s ≠ none ∨ t.size < wordLimit) :
    (t.intern s).1 = .ok (t.table.intern s).1 ∧ (t.intern s).2.table = (t.table.intern s).2 := by
  cases hs : t.find? s with
  | some id =>
    rw [intern_of_find? hs, SymbolTable.intern_of_find? ((h.find?_table s).trans hs)]
    exact ⟨rfl, rfl⟩
  | none =>
    rw [intern_of_room hs (hroom.resolve_left fun hne => hne hs),
      SymbolTable.intern_of_not_found ((h.find?_table s).trans hs)]
    exact ⟨rfl, rfl⟩

/-! ## Requests -/

/-- The answer to a request, unless the table is too full for it. -/
def ask (t : Interner) : (r : Request) → Except TableFull r.Answer × Interner
  | .intern s => t.intern s
  | .find s => (.ok (t.find? s), t)
  | .resolve id => (.ok (t.resolve id), t)
  | .name id => (.ok (t.name? id), t)
  | .size => (.ok t.size, t)
  | .isEmpty => (.ok t.isEmpty, t)
  | .list => (.ok t.toList, t)

theorem Inverse.ask (h : t.Inverse) (r : Request) : (t.ask r).2.Inverse := by
  cases r with
  | intern s => exact h.intern s
  | _ => exact h

theorem size_ask_le (hsize : t.size ≤ wordLimit) (r : Request) :
    (t.ask r).2.size ≤ wordLimit := by
  cases r with
  | intern s => exact size_intern_le hsize s
  | _ => exact hsize

/-- A request is answered as by the symbol table, or it is a new spelling and the table is full. -/
theorem Inverse.ask_cases (h : t.Inverse) (r : Request) :
    ((t.ask r).1 = .ok (r.ask t.table).1 ∧ (t.ask r).2.table = (r.ask t.table).2) ∨
      ∃ s, r = .intern s ∧ t.find? s = none ∧ wordLimit ≤ t.size ∧
        (t.ask r).1 = .error {} ∧ (t.ask r).2 = t := by
  cases r with
  | intern s =>
    by_cases hroom : t.find? s ≠ none ∨ t.size < wordLimit
    · exact .inl (h.intern_table hroom)
    · obtain ⟨hs, hfull⟩ := not_or.mp hroom
      have hs := not_not.mp hs
      have hfull := Nat.not_lt.mp hfull
      refine .inr ⟨s, rfl, hs, hfull, ?_, ?_⟩ <;> rw [Interner.ask, intern_of_full hs hfull]
  | find s => exact .inl ⟨congrArg Except.ok (h.find?_table s).symm, rfl⟩
  | _ => exact .inl ⟨rfl, rfl⟩

end Interner

end ClosureMachine
