import ClosureMachine.Value

/-!
Global bindings: at most one value per symbol, in the order in which the symbols were first bound.
-/

namespace ClosureMachine

structure Globals where
  bindings : List (SymbolId × Value) := []
  deriving DecidableEq, Repr, Inhabited

namespace Globals

def empty : Globals := {}

def size (g : Globals) : Nat := g.bindings.length

def isEmpty (g : Globals) : Bool := g.bindings.isEmpty

def get? (g : Globals) (var : SymbolId) : Option Value := g.bindings.lookup var

def contains (g : Globals) (var : SymbolId) : Bool := (g.get? var).isSome

/-- Change the value of a symbol that is bound; others stay as they are. -/
def replace (var : SymbolId) (v : Value) : List (SymbolId × Value) → List (SymbolId × Value)
  | [] => []
  | (k, w) :: rest => if var == k then (k, v) :: rest else (k, w) :: replace var v rest

/-- Bind a symbol, whether it was bound or not. -/
def define (g : Globals) (var : SymbolId) (v : Value) : Globals :=
  if g.contains var then ⟨replace var v g.bindings⟩ else ⟨g.bindings ++ [(var, v)]⟩

/-- Change the value of a symbol, or nothing if it is unbound. -/
def set? (g : Globals) (var : SymbolId) (v : Value) : Option Globals :=
  if g.contains var then some ⟨replace var v g.bindings⟩ else none

/-- The bindings whose values do not point into the arena. -/
def immediates (g : Globals) : Globals := ⟨g.bindings.filter fun b => !b.2.isBoxed⟩

theorem lookup_replace (var k : SymbolId) (v : Value) (bs : List (SymbolId × Value)) :
    (replace var v bs).lookup k =
      if k = var then (bs.lookup var).map (fun _ => v) else bs.lookup k := by
  induction bs with
  | nil => simp [replace]
  | cons b bs ih =>
    obtain ⟨j, w⟩ := b
    by_cases hj : var = j
    · subst hj
      by_cases hk : k = var
      · subst hk; simp [replace]
      · have : (k == var) = false := by simpa using hk
        simp [replace, List.lookup_cons, this, hk]
    · have hv : (var == j) = false := by simpa using hj
      by_cases hk : k = j
      · subst hk
        have : ¬ k = var := fun e => hj e.symm
        simp [replace, hv, this]
      · have hkj : (k == j) = false := by simpa using hk
        simpa [replace, hv, List.lookup_cons, hkj] using ih

theorem set?_eq_none_iff (g : Globals) (var : SymbolId) (v : Value) :
    g.set? var v = none ↔ g.get? var = none := by
  cases h : g.get? var <;> simp [set?, contains, h]

theorem get?_of_set? {g g' : Globals} {var k : SymbolId} {v : Value} (h : g.set? var v = some g') :
    g'.get? k = if k = var then some v else g.get? k := by
  unfold set? at h
  split at h
  · rename_i hc
    cases h
    obtain ⟨w, hw⟩ := Option.isSome_iff_exists.mp hc
    simp only [get?, lookup_replace]
    split
    · rw [show g.bindings.lookup var = some w from hw]; rfl
    · rfl
  · cases h

theorem get?_define (g : Globals) (var k : SymbolId) (v : Value) :
    (g.define var v).get? k = if k = var then some v else g.get? k := by
  unfold define
  split
  · next hc => exact get?_of_set? (by rw [set?, if_pos hc])
  · next hc =>
    have hnone : g.bindings.lookup var = none := by
      cases hv : g.bindings.lookup var with
      | none => rfl
      | some v => exact absurd (by rw [contains, get?, hv]; rfl) hc
    by_cases hk : k = var
    · subst hk
      simp [get?, List.lookup_append, hnone]
    · have hbeq : (k == var) = false := by simpa using hk
      simp [get?, List.lookup_append, List.lookup_cons, hbeq, hk]

theorem mem_of_get? {g : Globals} {var : SymbolId} {v : Value} (h : g.get? var = some v) :
    (var, v) ∈ g.bindings := by
  obtain ⟨before, after, heq, -⟩ := List.lookup_eq_some_iff.mp h
  simp [heq]

theorem get?_of_mem {g : Globals} {var : SymbolId} {v : Value} (h : (var, v) ∈ g.bindings) :
    ∃ w, g.get? var = some w := by
  cases hw : g.get? var with
  | some w => exact ⟨w, rfl⟩
  | none =>
    have := List.lookup_eq_none_iff.mp hw (var, v) h
    simp at this

theorem mem_replace {var k : SymbolId} {v w : Value} {bs : List (SymbolId × Value)}
    (h : (k, w) ∈ replace var v bs) : (k = var ∧ w = v) ∨ (k, w) ∈ bs := by
  induction bs with
  | nil => cases h
  | cons b bs ih =>
    unfold replace at h
    split at h
    · next hk =>
      rcases List.mem_cons.mp h with h | h
      · cases h
        exact .inl ⟨(beq_iff_eq.mp hk).symm, rfl⟩
      · exact .inr (List.mem_cons_of_mem _ h)
    · rcases List.mem_cons.mp h with h | h
      · exact .inr (h ▸ List.mem_cons_self ..)
      · exact (ih h).imp_right (List.mem_cons_of_mem _)

theorem mem_set? {g g' : Globals} {var k : SymbolId} {v w : Value} (h : g.set? var v = some g')
    (hm : (k, w) ∈ g'.bindings) : (k = var ∧ w = v) ∨ (k, w) ∈ g.bindings := by
  unfold set? at h
  split at h
  · cases h
    exact mem_replace hm
  · cases h

theorem mem_define {g : Globals} {var k : SymbolId} {v w : Value}
    (hm : (k, w) ∈ (g.define var v).bindings) : (k = var ∧ w = v) ∨ (k, w) ∈ g.bindings := by
  unfold define at hm
  split at hm
  · exact mem_replace hm
  · rcases List.mem_append.mp hm with hm | hm
    · exact .inr hm
    · cases List.mem_singleton.mp hm
      exact .inl ⟨rfl, rfl⟩

/-- No symbol is bound twice. -/
def Distinct (g : Globals) : Prop := (g.bindings.map Prod.fst).Nodup

theorem map_fst_replace (var : SymbolId) (v : Value) (bs : List (SymbolId × Value)) :
    (replace var v bs).map Prod.fst = bs.map Prod.fst := by
  induction bs with
  | nil => rfl
  | cons b bs ih =>
    rw [replace]
    split
    · rfl
    · rw [List.map_cons, List.map_cons, ih]

theorem Distinct.define {g : Globals} (h : g.Distinct) (var : SymbolId) (v : Value) :
    (g.define var v).Distinct := by
  unfold Globals.define Distinct
  split
  · rw [map_fst_replace]
    exact h
  · next hc =>
    rw [List.map_append]
    refine List.nodup_append.mpr ⟨h, by simp, ?_⟩
    rintro k hk k' hk' rfl
    obtain ⟨⟨k₀, w⟩, hb, rfl⟩ := List.mem_map.mp hk
    obtain ⟨u, hu⟩ := get?_of_mem hb
    cases List.mem_singleton.mp hk'
    exact hc (by rw [contains, hu]; rfl)

theorem Distinct.set? {g g' : Globals} (h : g.Distinct) {var : SymbolId} {v : Value}
    (hs : g.set? var v = some g') : g'.Distinct := by
  unfold Globals.set? at hs
  split at hs
  · cases hs
    rw [Distinct, map_fst_replace]
    exact h
  · cases hs

theorem Distinct.immediates {g : Globals} (h : g.Distinct) : g.immediates.Distinct :=
  List.Nodup.sublist (List.filter_sublist.map Prod.fst) h

theorem get?_immediates {g : Globals} (h : g.Distinct) (var : SymbolId) :
    g.immediates.get? var = (g.get? var).filter fun v => !v.isBoxed := by
  unfold immediates get?
  unfold Distinct at h
  generalize g.bindings = bs at h
  induction bs with
  | nil => rfl
  | cons b bs ih =>
    obtain ⟨k, w⟩ := b
    obtain ⟨hk, hbs⟩ := List.nodup_cons.mp h
    by_cases hvar : var = k
    · subst hvar
      have hnone : bs.lookup var = none := by
        refine List.lookup_eq_none_iff.mpr fun b hb => ?_
        have hne : var ≠ b.1 := fun heq => hk (List.mem_map.mpr ⟨b, hb, heq.symm⟩)
        simpa using hne
      have hrest := ih hbs
      rw [hnone] at hrest
      cases hw : w.isBoxed with
      | true => simpa [hw, Option.filter] using hrest
      | false => simp [hw, Option.filter]
    · have hbeq : (var == k) = false := by simpa using hvar
      cases hw : w.isBoxed with
      | true => simp [hw, List.lookup_cons, hbeq, ih hbs]
      | false => simp [hw, List.lookup_cons, hbeq, ih hbs]

theorem mem_immediates {g : Globals} {k : SymbolId} {w : Value}
    (hm : (k, w) ∈ g.immediates.bindings) : (k, w) ∈ g.bindings ∧ w.isBoxed = false := by
  simpa [immediates] using hm

end Globals

end ClosureMachine
