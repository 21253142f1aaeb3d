import ClosureMachine.Proofs.Toml.Bounds
import ClosureMachine.Proofs.Toml.Lines

/-!
What is relied on of a reader of TOML, `Conforms`: a document of plain sections is read as the
tables that TOML 1.0 says it is, and no integer of any document exceeds 64 bits. Both are said of
the data by its lookups, for the order of entries is nowhere promised. `parse?` conforms: the
statements of plain sections fill one table after the other (`applyLines_sections`), and bounded
items have bounded values (`Item.Bounded.value_le`).
-/

namespace ClosureMachine.Toml

/-! ## Conformance -/

/-- The integer occurs in the value. -/
inductive Value.Has (n : Int) : Value → Prop
  | integer : Has n (.scalar (.integer n))
  | element {items : List Value} {v : Value} : v ∈ items → Has n v → Has n (.array items)
  | entry {t : List (String × Value)} {e : String × Value} : e ∈ t → Has n e.2 → Has n (.table t)

/-- The integer occurs in the table. -/
def Entries.Has (t : Entries) (n : Int) : Prop := (Value.table t).Has n

/-- The table has these numbers and nothing else. -/
structure Entries.HasNumbers (t : Entries) (numbers : List (String × Nat)) : Prop where
  number : ∀ e ∈ numbers, t.lookup e.1 = some (.scalar (.integer e.2))
  only : ∀ key, (t.lookup key).isSome → key ∈ numbers.map Prod.fst

/-- The table has these sections and nothing else. -/
structure Entries.HasSections (t : Entries) (ss : List Section) : Prop where
  sections : ∀ s ∈ ss, ∃ u, t.lookup s.name = some (.table u) ∧ Entries.HasNumbers u s.numbers
  only : ∀ key, (t.lookup key).isSome → key ∈ ss.map Section.name

/-- Names need no quotes and are distinct, and numbers fit in 64 bits. -/
structure Section.Plain (s : Section) : Prop where
  name : IsBare s.name
  keys : ∀ e ∈ s.numbers, IsBare e.1
  distinct : (s.numbers.map Prod.fst).Nodup
  small : ∀ e ∈ s.numbers, e.2 ≤ maxInteger

/-- A reader follows TOML 1.0 on plain sections, and its integers have 64 bits. -/
structure Conforms (parse : String → Option Entries) : Prop where
  sections : ∀ ss, (∀ s ∈ ss, s.Plain) → (ss.map Section.name).Nodup →
    ∃ t, parse (Section.document ss) = some t ∧ t.HasSections ss
  integers : ∀ text t, parse text = some t → ∀ n, t.Has n → n ≤ maxInteger

/-! ## Lookups -/

section Lookups

variable {α β : Type} {l : List α} {key : α → String} {value : α → β}

theorem lookup_map_of_mem (hl : (l.map key).Nodup) {a : α} (ha : a ∈ l) :
    (l.map fun a => (key a, value a)).lookup (key a) = some (value a) := by
  induction l with
  | nil => cases ha
  | cons b l ih =>
    rw [List.map_cons, List.nodup_cons] at hl
    rw [List.map_cons, List.lookup_cons]
    rcases List.mem_cons.mp ha with rfl | ha
    · rw [beq_self_eq_true]
    · have hne : key a ≠ key b := fun h => hl.1 (h ▸ List.mem_map_of_mem ha)
      rw [beq_false_of_ne hne]
      exact ih hl.2 ha

theorem mem_of_lookup_map {name : String}
    (h : ((l.map fun a => (key a, value a)).lookup name).isSome) : name ∈ l.map key := by
  obtain ⟨e, he, hname⟩ := List.lookup_isSome_iff.mp h
  obtain ⟨a, ha, rfl⟩ := List.mem_map.mp he
  exact List.mem_map.mpr ⟨a, ha, (eq_of_beq hname).symm⟩

end Lookups

/-! ## Plain sections -/

namespace Section

/-- The lines of a section. -/
def lines (s : Section) : List Line :=
  .header s.name :: s.numbers.map fun e => .number e.1 e.2

def documentLines : List Section → List Line
  | [] => []
  | [s] => s.lines
  | s :: ss => s.lines ++ .blank :: documentLines ss

/-- The table of a section as a document holds it. -/
def items (s : Section) : Table := s.numbers.map fun e => (e.1, .scalar (.integer e.2))

theorem toList_text (s : Section) : s.text.toList = s.lines.flatMap Line.chars := by
  simp [text, lines, Line.chars, String.toList_join, List.flatMap_map, toString, Nat.repr]

theorem toList_document (ss : List Section) :
    (document ss).toList = (documentLines ss).flatMap Line.chars := by
  induction ss with
  | nil => rfl
  | cons s ss ih =>
    cases ss with
    | nil => exact s.toList_text
    | cons s' ss => simp [document, documentLines, toList_text, ih, Line.chars]

theorem Plain.lines {s : Section} (h : s.Plain) : ∀ l ∈ s.lines, l.Plain := by
  refine List.forall_mem_cons.mpr ⟨h.name, List.forall_mem_map.mpr fun e he => ⟨h.keys e he, ?_⟩⟩
  have hmax : Int64.maxValue.toInt = maxInteger := rfl
  rw [hmax]
  exact Int.ofNat_le.mpr (h.small e he)

theorem plain_documentLines {ss : List Section} (h : ∀ s ∈ ss, s.Plain) :
    ∀ l ∈ documentLines ss, l.Plain := by
  induction ss with
  | nil => exact nofun
  | cons s ss ih =>
    obtain ⟨hs, hss⟩ := List.forall_mem_cons.mp h
    cases ss with
    | nil => exact hs.lines
    | cons s' ss =>
      exact List.forall_mem_append.mpr ⟨hs.lines, List.forall_mem_cons.mpr ⟨trivial, ih hss⟩⟩

end Section

/-! ## The document of plain sections -/

/-- Carry out the statements that lines are. -/
def applyLines (d : Document) (ls : List Line) : Option Document :=
  (ls.filterMap Line.statement?).foldlM Document.apply d

theorem applyLines_append (d : Document) (ls ms : List Line) :
    applyLines d (ls ++ ms) = (applyLines d ls).bind (applyLines · ms) := by
  rw [applyLines, List.filterMap_append, List.foldlM_append]
  rfl

theorem applyLines_header {d : Document} {name : String} (h : d.root.lookup name = none)
    (ls : List Line) :
    applyLines d (Line.header name :: ls) = applyLines (.opened d.root name []) ls := by
  simp [applyLines, Line.statement?, Document.apply_header h]

theorem applyLines_number {t u : Table} {name key : String} (ht : t.lookup name = none)
    (hu : u.lookup key = none) (n : Nat) (ls : List Line) :
    applyLines (.opened t name u) (Line.number key n :: ls) =
      applyLines (.opened t name (u ++ [(key, .scalar (.integer n))])) ls := by
  simp [applyLines, Line.statement?, Document.apply_entry ht hu]

theorem applyLines_numbers {t : Table} {name : String} (ht : t.lookup name = none)
    {numbers : List (String × Nat)} (hnodup : (numbers.map Prod.fst).Nodup) {u : Table}
    (hu : ∀ e ∈ numbers, u.lookup e.1 = none) :
    applyLines (.opened t name u) (numbers.map fun e => .number e.1 e.2) =
      some (.opened t name (u ++ numbers.map fun e => (e.1, .scalar (.integer e.2)))) := by
  induction numbers generalizing u with
  | nil => simp [applyLines]
  | cons e numbers ih =>
    obtain ⟨hnew, hrest⟩ := List.forall_mem_cons.mp hu
    rw [List.map_cons, List.nodup_cons] at hnodup
    have hlater : ∀ d ∈ numbers,
        (u ++ [(e.1, .scalar (.integer e.2))] : Table).lookup d.1 = none := by
      intro d hd
      have hne : d.1 ≠ e.1 := fun h => hnodup.1 (h ▸ List.mem_map_of_mem hd)
      simp [List.lookup_append, hrest d hd, hne]
    rw [List.map_cons, applyLines_number ht hnew, ih hnodup.2 hlater]
    simp

/-- A section is added behind the tables that are there. -/
theorem applyLines_section {d : Document} {s : Section} (hs : s.Plain)
    (h : d.root.lookup s.name = none) :
    applyLines d s.lines = some (.opened d.root s.name s.items) := by
  rw [Section.lines, applyLines_header h, applyLines_numbers h hs.distinct fun _ _ => rfl]
  rfl

/-- The tables of sections. -/
def sectionTables (ss : List Section) : Table := ss.map fun s => (s.name, .table .header s.items)

theorem applyLines_sections {ss : List Section} (hss : ∀ s ∈ ss, s.Plain)
    (hnodup : (ss.map Section.name).Nodup) {d : Document}
    (hd : ∀ s ∈ ss, d.root.lookup s.name = none) :
    ∃ d', applyLines d (Section.documentLines ss) = some d' ∧
      d'.root = d.root ++ sectionTables ss := by
  induction ss generalizing d with
  | nil => exact ⟨d, rfl, by simp [sectionTables]⟩
  | cons s ss ih =>
    obtain ⟨hs, hss⟩ := List.forall_mem_cons.mp hss
    obtain ⟨hnew, hrest⟩ := List.forall_mem_cons.mp hd
    rw [List.map_cons, List.nodup_cons] at hnodup
    have hfirst := applyLines_section hs hnew
    cases ss with
    | nil => exact ⟨_, hfirst, rfl⟩
    | cons s' ss =>
      have hlater : ∀ x ∈ s' :: ss,
          (Document.opened d.root s.name s.items).root.lookup x.name = none := by
        intro x hx
        have hne : x.name ≠ s.name := fun h => hnodup.1 (h ▸ List.mem_map_of_mem hx)
        simp [Document.opened, List.lookup_append, hrest x hx, hne]
      obtain ⟨d', hd', hroot⟩ := ih hss hnodup.2 hlater
      have hblank : applyLines (.opened d.root s.name s.items)
          (Line.blank :: Section.documentLines (s' :: ss)) = some d' := hd'
      refine ⟨d', ?_, ?_⟩
      · rw [Section.documentLines, applyLines_append, hfirst, Option.bind_some, hblank]
        simp
      · simp [hroot, Document.opened, sectionTables]

/-! ## Values of items -/

theorem values_eq_map (items : List Item) : Item.values items = items.map Item.value := by
  induction items with
  | nil => rfl
  | cons i items ih => rw [Item.values, ih, List.map_cons]

theorem entries_eq_map (t : Table) : t.entries = t.map fun e => (e.1, e.2.value) := by
  induction t with
  | nil => rfl
  | cons e t ih => rw [Table.entries, ih, List.map_cons]

theorem tableValues_eq_map (ts : List Table) :
    Table.values ts = ts.map fun t => .table t.entries := by
  induction ts with
  | nil => rfl
  | cons t ts ih => rw [Table.values, ih, List.map_cons]

/-- Integers that occur in a table occur in one of its items. -/
theorem has_of_entries {t : Table} {n : Int} (h : t.entries.Has n) : ∃ e ∈ t, e.2.value.Has n := by
  rw [entries_eq_map] at h
  cases h with
  | entry he hn =>
    obtain ⟨e, hmem, rfl⟩ := List.mem_map.mp he
    exact ⟨e, hmem, hn⟩

theorem Item.Bounded.value_le {i : Item} (h : i.Bounded) {n : Int} (hn : i.value.Has n) :
    n ≤ Int64.maxValue.toInt := by
  induction h with
  | scalar hs =>
    cases hn
    exact hs n rfl
  | array _ ih =>
    rw [Item.value, values_eq_map] at hn
    cases hn with
    | element hv hn =>
      obtain ⟨i, hi, rfl⟩ := List.mem_map.mp hv
      exact ih i hi hn
  | inline _ ih =>
    obtain ⟨e, he, hn⟩ := has_of_entries hn
    exact ih e he hn
  | table _ ih =>
    obtain ⟨e, he, hn⟩ := has_of_entries hn
    exact ih e he hn
  | tables _ ih =>
    rw [Item.value, tableValues_eq_map] at hn
    cases hn with
    | element hv hn =>
      obtain ⟨t, ht, rfl⟩ := List.mem_map.mp hv
      obtain ⟨e, he, hn⟩ := has_of_entries hn
      exact ih t ht e he hn

/-! ## Tables of sections -/

theorem Section.Plain.hasNumbers {s : Section} (h : s.Plain) :
    s.items.entries.HasNumbers s.numbers := by
  have hentries : s.items.entries =
      s.numbers.map fun e => (e.1, .scalar (.integer e.2)) := by
    simp [entries_eq_map, Section.items, Item.value, Function.comp_def]
  rw [hentries]
  exact ⟨fun e he => lookup_map_of_mem h.distinct he, fun _ hkey => mem_of_lookup_map hkey⟩

theorem hasSections_entries {ss : List Section} (hss : ∀ s ∈ ss, s.Plain)
    (hnodup : (ss.map Section.name).Nodup) : (sectionTables ss).entries.HasSections ss := by
  have hentries : (sectionTables ss).entries =
      ss.map fun s => (s.name, .table s.items.entries) := by
    simp [entries_eq_map, sectionTables, Item.value, Function.comp_def]
  rw [hentries]
  exact ⟨fun s hs => ⟨_, lookup_map_of_mem hnodup hs, (hss s hs).hasNumbers⟩,
    fun _ hkey => mem_of_lookup_map hkey⟩

/-! ## The reader -/

theorem parse?_sections {ss : List Section} (hss : ∀ s ∈ ss, s.Plain)
    (hnodup : (ss.map Section.name).Nodup) :
    ∃ t, parse? (Section.document ss) = some t ∧ t.HasSections ss := by
  obtain ⟨d, hd, hroot⟩ := applyLines_sections hss hnodup (d := {}) fun _ _ => rfl
  have hread : Document.read? (Section.document ss) = some (sectionTables ss) := by
    rw [Document.read?_lines (Section.toList_document ss) (Section.plain_documentLines hss)]
    have hstatements : Document.ofStatements?
        ((Section.documentLines ss).filterMap Line.statement?) = some d := hd
    rw [hstatements, Option.map_some, hroot]
    rfl
  exact ⟨_, by rw [parse?, hread, Option.map_some], hasSections_entries hss hnodup⟩

theorem parse?_le {text : String} {t : Entries} (h : parse? text = some t) {n : Int}
    (hn : t.Has n) : n ≤ maxInteger := by
  obtain ⟨u, hu, rfl⟩ := Option.map_eq_some_iff.mp h
  have hbounded : (Item.inline u).Bounded := .inline (Document.read?_bounded hu)
  exact hbounded.value_le hn

theorem parse?_conforms : Conforms parse? :=
  ⟨fun _ => parse?_sections, fun _ _ h _ => parse?_le h⟩

end ClosureMachine.Toml
