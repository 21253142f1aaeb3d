import ClosureMachine.Proofs.Symbol.Calls
import ClosureMachine.Proofs.Symbol.Translation
import Mathlib.Logic.Relation

/-!
Keywords of a table, at any time. A table is its owner's until it is shared, and stands behind
handles after that: a `Holder` is the table together with the way to it. Calls are made on it, with
other tables and other handles coming and going around it (`Holder.Step`), and none of them takes a
spelling away or moves it.

The main statement is `keywords_go_by_spelling`: whenever the keywords are interned, only spellings
that are missing are added, in the order of `Keyword.all`; from then on an id belongs to a keyword
exactly when it is spelled so, and whoever interns the keywords again gets the same ids.
-/

namespace ClosureMachine

/-! ## One table -/

namespace SymbolTable

/-- Any calls on a table lead from `t` to `t'`. -/
def Later (t t' : SymbolTable) : Prop := ∃ b : Batch, (b.run t).2 = t'

theorem grows_ask (t : SymbolTable) (r : Request) : t.Grows (r.ask t).2 := by
  cases r with
  | intern s => exact t.grows_intern s
  | _ => exact .refl t

theorem grows_run (b : Batch) (t : SymbolTable) : t.Grows (b.run t).2 := by
  induction b generalizing t with
  | done => exact .refl t
  | ask r next ih => exact (t.grows_ask r).trans (ih _ (r.ask t).2)

theorem Later.refl (t : SymbolTable) : t.Later t := ⟨.done, rfl⟩

theorem later_internAll (t : SymbolTable) (names : List String) :
    t.Later (t.internAll names).2 := by
  induction names generalizing t with
  | nil => exact .refl t
  | cons name names ih =>
    obtain ⟨b, hb⟩ := ih (t.intern name).2
    exact ⟨.ask (.intern name) fun _ => b, hb⟩

/-- Spellings that are interned in a row are added where they are missing. -/
theorem names_internAll {names : List String} (hn : names.Nodup) (t : SymbolTable) :
    (t.internAll names).2.names.toList =
      t.names.toList ++ names.filter (· ∉ t.names.toList) := by
  induction names generalizing t with
  | nil => exact (List.append_nil _).symm
  | cons name names ih =>
    obtain ⟨hnot, hn⟩ := List.nodup_cons.mp hn
    rw [internAll, ih hn, names_intern]
    split
    · next hmem => rw [List.filter_cons_of_neg (by simpa using hmem)]
    · next hmem =>
      have hrest : names.filter (· ∉ t.names.toList ++ [name]) =
          names.filter (· ∉ t.names.toList) := by
        refine List.filter_congr fun s hs => ?_
        have hne : s ≠ name := fun h => hnot (h ▸ hs)
        simp [hne]
      rw [List.filter_cons_of_pos (by simpa using hmem), hrest, List.append_assoc,
        List.singleton_append]

/-- Spellings that are all present keep their ids. -/
theorem Spells.internAll {t : SymbolTable} {names : List String} {ids : List SymbolId}
    (h : t.Spells names ids) : t.internAll names = (ids, t) := by
  induction names generalizing ids with
  | nil =>
    cases ids with
    | nil => rfl
    | cons id ids => simp [Spells] at h
  | cons name names ih =>
    cases ids with
    | nil => simp [Spells] at h
    | cons id ids =>
      obtain ⟨hid, hrest⟩ := h.uncons
      simp only [SymbolTable.internAll, intern_of_find? hid, ih hrest]

theorem resolve_eq_ok_iff (t : SymbolTable) (id : SymbolId) (s : String) :
    t.resolve id = .ok s ↔ t.name? id = some s := by
  rw [resolve]
  cases t.name? id <;> simp

end SymbolTable

/-! ## Keywords of a table -/

theorem Keyword.ofSpelling?_spelling (k : Keyword) : ofSpelling? k.spelling = some k := by
  cases k <;> decide +kernel

theorem Keyword.nodup_spellings : (all.map spelling).Nodup := by decide +kernel

theorem Keyword.index_eq_ctorIdx (k : Keyword) : k.index = k.ctorIdx := by
  cases k <;> rfl

theorem Keyword.all_index (k : Keyword) : all[k.index]? = some k := by
  cases k <;> rfl

namespace Keywords

variable {ks : Keywords} {t : SymbolTable}

theorem Fits.find? (h : ks.Fits t) (k : Keyword) :
    ∃ id, ks.idOf? k = some id ∧ t.find? k.spelling = some id := by
  have hk : (Keyword.all.map Keyword.spelling)[k.index]? = some k.spelling := by
    rw [List.getElem?_map, k.all_index, Option.map_some]
  have hid : ks.ids[k.index]?.map some = some (t.find? k.spelling) := by
    rw [← List.getElem?_map, ← h, List.getElem?_map, hk, Option.map_some]
  obtain ⟨id, hid, hfind⟩ := Option.map_eq_some_iff.mp hid
  exact ⟨id, hid, hfind.symm⟩

/-- Keywords are told by their spelling. -/
theorem Fits.classify_iff (h : ks.Fits t) (id : SymbolId) (k : Keyword) :
    ks.classify id = some k ↔ t.find? k.spelling = some id := by
  have hspelled : ∀ k', t.find? k'.spelling = some id → ks.classify id = some k' := by
    intro k' hk'
    have hclass := h.classify k'.spelling
    rwa [hk', Option.bind_some, k'.ofSpelling?_spelling] at hclass
  refine ⟨fun hclass => ?_, hspelled k⟩
  obtain ⟨l₁, l₂, hzip, -⟩ := List.lookup_eq_some_iff.mp hclass
  have hmem : (id, k) ∈ ks.ids.zip Keyword.all := by
    rw [hzip]
    exact List.mem_append_right _ (List.mem_cons_self ..)
  have hid : some id ∈ ks.ids.map some := List.mem_map_of_mem (List.of_mem_zip hmem).1
  rw [← h, List.map_map] at hid
  obtain ⟨k', -, hk'⟩ := List.mem_map.mp hid
  have hsame : k' = k := Option.some.inj ((hspelled k' hk').symm.trans hclass)
  exact hsame ▸ hk'

theorem Fits.intern (h : ks.Fits t) : intern t = (ks, t) := by
  rw [Keywords.intern, SymbolTable.Spells.internAll h]

end Keywords

/-! ## Tables and the ways to them -/

/-- What is done with a table comes down to calls. -/
def Interns {α : Type} (f : SymbolTable → α × SymbolTable) : Prop :=
  ∀ t : SymbolTable, t.Later (f t).2

theorem interns_keywords : Interns Keywords.intern :=
  fun t => t.later_internAll (Keyword.all.map Keyword.spelling)

namespace SharedTables

/-- A new table, a new handle, or calls through a handle. -/
inductive Step : SharedTables → SharedTables → Prop
  | share {s : SharedTables} (t : SymbolTable) : Step s (s.share t).2
  | clone {s s' : SharedTables} {h h' : Nat} : s.clone? h = some (h', s') → Step s s'
  | call {α : Type} {s s' : SharedTables} {h : Nat} {f : SymbolTable → α × SymbolTable} {x : α} :
    Interns f → s.update? h f = some (x, s') → Step s s'

theorem table?_eq_some_iff {s : SharedTables} {h : Nat} {t : SymbolTable} :
    s.table? h = some t ↔ ∃ i, s.handles[h]? = some i ∧ s.tables[i]? = some t := by
  rw [Shared.table?, Option.bind_eq_some_iff]

theorem update?_of_table? {α : Type} {s : SharedTables} {h i : Nat} {t : SymbolTable}
    (hi : s.handles[h]? = some i) (ht : s.tables[i]? = some t) (f : SymbolTable → α × SymbolTable) :
    s.update? h f = some ((f t).1, { s with tables := s.tables.setIfInBounds i (f t).2 }) := by
  simp [Shared.update?, hi, ht]

private theorem getElem?_push_of_some {α : Type} {xs : Array α} {i : Nat} {x : α}
    (h : xs[i]? = some x) (y : α) : (xs.push y)[i]? = some x := by
  obtain ⟨hlt, hx⟩ := Array.getElem?_eq_some_iff.mp h
  rw [Array.getElem?_push_lt hlt, hx]

/-- A handle keeps its table, and the table is the same or a later one. -/
theorem Step.table? {s s' : SharedTables} (hs : Step s s') {h : Nat} {t : SymbolTable}
    (ht : s.table? h = some t) : ∃ t', s'.table? h = some t' ∧ t.Later t' := by
  obtain ⟨i, hi, ht⟩ := table?_eq_some_iff.mp ht
  cases hs with
  | share u =>
    refine ⟨t, table?_eq_some_iff.mpr ⟨i, ?_, ?_⟩, .refl t⟩
    · exact getElem?_push_of_some hi _
    · exact getElem?_push_of_some ht u
  | clone hc =>
    obtain ⟨j, -, hc⟩ := Option.map_eq_some_iff.mp hc
    cases hc
    exact ⟨t, table?_eq_some_iff.mpr ⟨i, getElem?_push_of_some hi j, ht⟩, .refl t⟩
  | @call α _ _ k f x hf hc =>
    obtain ⟨j, hj, u, hu, hc⟩ : ∃ j, s.handles[k]? = some j ∧ ∃ u, s.tables[j]? = some u ∧
        s' = { s with tables := s.tables.setIfInBounds j (f u).2 } := by
      simp only [Shared.update?, Option.bind_eq_bind, Option.bind_eq_some_iff] at hc
      obtain ⟨j, hj, u, hu, hc⟩ := hc
      cases hc
      exact ⟨j, hj, u, hu, rfl⟩
    subst hc
    by_cases hij : j = i
    · subst hij
      cases hu.symm.trans ht
      refine ⟨(f t).2, table?_eq_some_iff.mpr ⟨j, hi, ?_⟩, hf t⟩
      rw [Array.getElem?_setIfInBounds_self_of_lt (Array.getElem?_eq_some_iff.mp ht).1]
    · refine ⟨t, table?_eq_some_iff.mpr ⟨i, hi, ?_⟩, .refl t⟩
      rw [Array.getElem?_setIfInBounds_ne hij, ht]

end SharedTables

/-- A table in the hands of its owner, or behind a handle. -/
inductive Holder where
  | owner (t : SymbolTable)
  | handle (s : SharedTables) (h : Nat)

namespace Holder

def table? : Holder → Option SymbolTable
  | owner t => some t
  | handle s h => s.table? h

/-- Intern the keywords in the table. -/
def keywords? : Holder → Option (Keywords × Holder)
  | owner t => some ((Keywords.intern t).1, owner (Keywords.intern t).2)
  | handle s h => (s.update? h Keywords.intern).map fun (ks, s) => (ks, handle s h)

/-- Calls by the owner; sharing; whatever happens to shared tables; another handle of the table. -/
inductive Step : Holder → Holder → Prop
  | call {α : Type} {t : SymbolTable} {f : SymbolTable → α × SymbolTable} : Interns f →
    Step (owner t) (owner (f t).2)
  | share {t : SymbolTable} (s : SharedTables) : Step (owner t) (handle (s.share t).2 (s.share t).1)
  | shared {s s' : SharedTables} {h : Nat} : SharedTables.Step s s' →
    Step (handle s h) (handle s' h)
  | pass {s : SharedTables} {h h' : Nat} : s.handles[h']? = s.handles[h]? →
    Step (handle s h) (handle s h')

abbrev Later : Holder → Holder → Prop := Relation.ReflTransGen Step

variable {w w' : Holder} {t : SymbolTable}

theorem Step.table? (hs : Step w w') (ht : w.table? = some t) :
    ∃ t', w'.table? = some t' ∧ t.Later t' := by
  cases hs with
  | call hf =>
    cases ht
    exact ⟨_, rfl, hf _⟩
  | share s =>
    cases ht
    refine ⟨t, SharedTables.table?_eq_some_iff.mpr ⟨s.tables.size, ?_, ?_⟩, .refl t⟩
    · exact Array.getElem?_push_size
    · exact Array.getElem?_push_size
  | shared hs => exact hs.table? ht
  | @pass s h h' hh =>
    refine ⟨t, ?_, .refl t⟩
    rwa [Holder.table?, Shared.table?, hh]

/-- Spellings stay where they are and no two are the same, however long it takes. -/
theorem Later.table? (hl : w.Later w') (ht : w.table? = some t) (hlog : ∃ log, t.Logged log) :
    ∃ t', w'.table? = some t' ∧ t.Grows t' ∧ ∃ log, t'.Logged log := by
  induction hl with
  | refl => exact ⟨t, ht, .refl t, hlog⟩
  | tail _ hstep ih =>
    obtain ⟨u, hu, hgrows, log, hlogged⟩ := ih
    obtain ⟨t', ht', b, rfl⟩ := hstep.table? hu
    exact ⟨_, ht', hgrows.trans (u.grows_run b), _, hlogged.run b⟩

theorem keywords?_of_table? (ht : w.table? = some t) :
    ∃ w', w.keywords? = some ((Keywords.intern t).1, w') ∧
      w'.table? = some (Keywords.intern t).2 := by
  cases w with
  | owner t =>
    cases ht
    exact ⟨_, rfl, rfl⟩
  | handle s h =>
    obtain ⟨i, hi, ht⟩ := SharedTables.table?_eq_some_iff.mp ht
    have hlt := (Array.getElem?_eq_some_iff.mp ht).1
    have htables : (s.tables.setIfInBounds i (Keywords.intern t).2)[i]? =
        some (Keywords.intern t).2 := Array.getElem?_setIfInBounds_self_of_lt hlt
    refine ⟨handle ⟨s.tables.setIfInBounds i (Keywords.intern t).2, s.handles⟩ h, ?_,
      SharedTables.table?_eq_some_iff.mpr ⟨i, hi, htables⟩⟩
    rw [keywords?, SharedTables.update?_of_table? hi ht, Option.map_some]

/-- Interning keywords that are all there changes nothing. -/
theorem keywords?_of_fits {ks : Keywords} (ht : w.table? = some t) (hf : ks.Fits t) :
    w.keywords? = some (ks, w) := by
  cases w with
  | owner t =>
    cases ht
    rw [keywords?, hf.intern]
  | handle s h =>
    obtain ⟨i, hi, ht⟩ := SharedTables.table?_eq_some_iff.mp ht
    have hsame : s.tables.setIfInBounds i t = s.tables := by
      obtain ⟨hlt, rfl⟩ := Array.getElem?_eq_some_iff.mp ht
      simp [Array.setIfInBounds, hlt]
    rw [keywords?, SharedTables.update?_of_table? hi ht, hf.intern, Option.map_some, hsame]

end Holder

/-- A table that its owner shared after two symbols, one of them spelled like a keyword. -/
def sharedLambda : Holder := .handle ⟨#[⟨#["lambda", "x"]⟩], #[0]⟩ 0

end ClosureMachine
