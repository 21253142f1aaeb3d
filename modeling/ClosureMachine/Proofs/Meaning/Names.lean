import ClosureMachine.Keyword

/-!
Names and their ids. A symbol table only grows, so a name keeps the id it has, and no two names
share one. Keywords that were interned into a table are recognised by their ids in every later table
exactly where their spelling is met (`Keywords.Fits.classify`).
-/

namespace ClosureMachine

namespace SymbolTable

/-- The spellings of the earlier table are the first ones of the later. -/
def Grows (t t' : SymbolTable) : Prop := t.names.toList <+: t'.names.toList

theorem Grows.refl (t : SymbolTable) : t.Grows t := List.prefix_refl _

theorem Grows.trans {t t' t'' : SymbolTable} (h : t.Grows t') (h' : t'.Grows t'') : t.Grows t'' :=
  List.IsPrefix.trans h h'

theorem find?_eq (t : SymbolTable) (s : String) : t.find? s = t.names.toList.idxOf? s := by
  rw [find?, ← List.idxOf?_toArray, Array.toArray_toList]

theorem Grows.find? {t t' : SymbolTable} (h : t.Grows t') {s : String} {id : SymbolId}
    (hs : t.find? s = some id) : t'.find? s = some id := by
  obtain ⟨rest, hrest⟩ := h
  rw [find?_eq] at hs ⊢
  rw [List.idxOf?] at hs ⊢
  rw [← hrest, List.findIdx?_append, hs, Option.some_or]

theorem mem_of_find? {t : SymbolTable} {s : String} {id : SymbolId} (h : t.find? s = some id) :
    s ∈ t.names.toList := by
  rw [find?_eq] at h
  exact List.isSome_idxOf?.mp (by rw [h]; rfl)

/-- Different names have different ids. -/
theorem find?_inj {t : SymbolTable} {s s' : String} {id : SymbolId} (h : t.find? s = some id)
    (h' : t.find? s' = some id) : s = s' := by
  rw [find?_eq, List.idxOf?_eq_some_iff] at h h'
  obtain ⟨_, hs, -⟩ := h
  obtain ⟨_, hs', -⟩ := h'
  exact hs.symm.trans hs'

theorem grows_intern (t : SymbolTable) (s : String) : t.Grows (t.intern s).2 := by
  unfold intern
  split
  · exact .refl t
  · simp [Grows]

theorem find?_intern (t : SymbolTable) (s : String) :
    (t.intern s).2.find? s = some (t.intern s).1 := by
  cases h : t.find? s with
  | some id => rw [intern_of_find? h, h]
  | none =>
    rw [intern_of_not_found h, find?_eq]
    rw [find?_eq, List.idxOf?] at h
    simp [List.idxOf?, List.findIdx?_append, h, size]

/-- `ids` are the ids of `names`, in the same order. -/
def Spells (t : SymbolTable) (names : List String) (ids : List SymbolId) : Prop :=
  names.map t.find? = ids.map some

theorem Spells.cons {t : SymbolTable} {name : String} {names : List String} {id : SymbolId}
    {ids : List SymbolId} (h : t.find? name = some id) (hs : t.Spells names ids) :
    t.Spells (name :: names) (id :: ids) := by
  rw [Spells, List.map_cons, List.map_cons, h, hs]

theorem Spells.uncons {t : SymbolTable} {name : String} {names : List String} {id : SymbolId}
    {ids : List SymbolId} (h : t.Spells (name :: names) (id :: ids)) :
    t.find? name = some id ∧ t.Spells names ids := by
  simpa [Spells] using h

theorem Spells.length_eq {t : SymbolTable} {names : List String} {ids : List SymbolId}
    (h : t.Spells names ids) : names.length = ids.length := by
  simpa using congrArg List.length h

theorem Spells.mono {t t' : SymbolTable} (hg : t.Grows t') {names : List String}
    {ids : List SymbolId} (h : t.Spells names ids) : t'.Spells names ids := by
  induction names generalizing ids with
  | nil => simpa [Spells] using h
  | cons name names ih =>
    cases ids with
    | nil => simp [Spells] at h
    | cons id ids =>
      obtain ⟨hid, hrest⟩ := h.uncons
      exact (ih hrest).cons (hg.find? hid)

/-- A name stands where its id stands. -/
theorem Spells.idxOf? {t : SymbolTable} {name : String} {id : SymbolId}
    (hid : t.find? name = some id) {names : List String} {ids : List SymbolId}
    (h : t.Spells names ids) : ids.idxOf? id = names.idxOf? name := by
  induction names generalizing ids with
  | nil =>
    cases ids with
    | nil => rfl
    | cons id ids => simp [Spells] at h
  | cons name' names ih =>
    cases ids with
    | nil => simp [Spells] at h
    | cons id' ids =>
      obtain ⟨hid', hrest⟩ := h.uncons
      have hiff : id' = id ↔ name' = name := by
        constructor
        · rintro rfl
          exact find?_inj hid' hid
        · rintro rfl
          exact Option.some.inj (hid'.symm.trans hid)
      simp only [List.idxOf?_cons, beq_iff_eq, hiff, ih hrest]

theorem Spells.nodup {t : SymbolTable} {names : List String} {ids : List SymbolId}
    (h : t.Spells names ids) (hn : names.Nodup) : ids.Nodup := by
  induction names generalizing ids with
  | nil =>
    cases ids with
    | nil => exact .nil
    | cons id ids => simp [Spells] at h
  | cons name names ih =>
    cases ids with
    | nil => simp [Spells] at h
    | cons id ids =>
      obtain ⟨hid, hrest⟩ := h.uncons
      obtain ⟨hname, hn⟩ := List.nodup_cons.mp hn
      refine List.nodup_cons.mpr ⟨fun hmem => hname ?_, ih hrest hn⟩
      have hsome : (ids.idxOf? id).isSome := List.isSome_idxOf?.mpr hmem
      rw [hrest.idxOf? hid] at hsome
      exact List.isSome_idxOf?.mp hsome

theorem spells_internAll (t : SymbolTable) (names : List String) :
    t.Grows (t.internAll names).2 ∧
      (t.internAll names).2.Spells names (t.internAll names).1 := by
  induction names generalizing t with
  | nil => exact ⟨.refl t, rfl⟩
  | cons name names ih =>
    obtain ⟨hg, hs⟩ := ih (t.intern name).2
    exact ⟨(grows_intern t name).trans hg, hs.cons (hg.find? (find?_intern t name))⟩

end SymbolTable

namespace Keywords

/-- The keywords have their ids in the table. -/
def Fits (ks : Keywords) (t : SymbolTable) : Prop :=
  t.Spells (Keyword.all.map Keyword.spelling) ks.ids

theorem fits_intern (t : SymbolTable) : (intern t).1.Fits (intern t).2 :=
  (t.spells_internAll (Keyword.all.map Keyword.spelling)).2

theorem Fits.mono {ks : Keywords} {t t' : SymbolTable} (h : ks.Fits t) (hg : t.Grows t') :
    ks.Fits t' := SymbolTable.Spells.mono hg h

private theorem lookup_zip {t : SymbolTable} {name : String} {id : SymbolId}
    (hid : t.find? name = some id) (ks : List Keyword) (ids : List SymbolId)
    (h : t.Spells (ks.map Keyword.spelling) ids) :
    (ids.zip ks).lookup id = ks.find? (·.spelling == name) := by
  induction ks generalizing ids with
  | nil => simp
  | cons k ks ih =>
    cases ids with
    | nil => simp [SymbolTable.Spells] at h
    | cons id' ids =>
      obtain ⟨hid', hrest⟩ := h.uncons
      by_cases hk : k.spelling = name
      · have : id' = id := by
          rw [hk] at hid'
          exact Option.some.inj (hid'.symm.trans hid)
        subst this
        simp [hk]
      · have hne : (id == id') = false := by
          simp only [beq_eq_false_iff_ne, ne_eq]
          rintro rfl
          exact hk (SymbolTable.find?_inj hid' hid)
        have hbeq : (k.spelling == name) = false := by simpa using hk
        simp [List.lookup_cons, hne, hbeq, ih ids hrest]

/-- A name is taken for a keyword exactly when it is spelled like one. -/
theorem Fits.classify {ks : Keywords} {t : SymbolTable} (h : ks.Fits t) (name : String) :
    (t.find? name).bind ks.classify = Keyword.ofSpelling? name := by
  cases hid : t.find? name with
  | some id => exact lookup_zip hid Keyword.all ks.ids h
  | none =>
    have hnone : ∀ k ∈ Keyword.all, ¬ (k.spelling == name) = true := by
      intro k hk hspell
      have hmem : t.find? k.spelling ∈ ks.ids.map some := by
        rw [← h]
        exact List.mem_map_of_mem (List.mem_map_of_mem hk)
      rw [beq_iff_eq.mp hspell, hid] at hmem
      simp at hmem
    exact (List.find?_eq_none.mpr hnone).symm

end Keywords

end ClosureMachine
