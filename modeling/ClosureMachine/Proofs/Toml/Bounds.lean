import ClosureMachine.Toml.Document

/-!
Numbers that a document can hold. A number that is read fits in 64 bits; wherever it is then put, in
arrays, tables or tables of several elements, it stays what it is. `Item.Bounded` says so of an item
with all that is in it, and `read?_bounded` of all that a text can hold.
-/

namespace ClosureMachine.Toml

/-- All numbers in the item are at most the largest of 64 bits. -/
inductive Item.Bounded : Item → Prop
  | scalar {s : Scalar} : (∀ n, s = .integer n → n ≤ Int64.maxValue.toInt) → Bounded (.scalar s)
  | array {items : List Item} : (∀ i ∈ items, Bounded i) → Bounded (.array items)
  | inline {t : List (String × Item)} : (∀ e ∈ t, Bounded e.2) → Bounded (.inline t)
  | table {origin : Origin} {t : List (String × Item)} : (∀ e ∈ t, Bounded e.2) →
    Bounded (.table origin t)
  | tables {ts : List (List (String × Item))} : (∀ t ∈ ts, ∀ e ∈ t, Bounded e.2) →
    Bounded (.tables ts)

/-! ## Tables -/

namespace Table

def Bounded (t : Table) : Prop := ∀ e ∈ t, e.2.Bounded

theorem bounded_nil : Bounded [] := nofun

theorem Bounded.append {t : Table} (h : t.Bounded) (key : String) {i : Item} (hi : i.Bounded) :
    Bounded (t ++ [(key, i)]) := by
  intro e he
  rcases List.mem_append.mp he with he | he
  · exact h e he
  · rwa [List.mem_singleton.mp he]

theorem Bounded.lookup {t : Table} (h : t.Bounded) {key : String} {i : Item}
    (hi : t.lookup key = some i) : i.Bounded := by
  induction t with
  | nil => cases hi
  | cons e t ih =>
    rw [List.lookup_cons] at hi
    split at hi
    · cases hi
      exact h _ List.mem_cons_self
    · exact ih (fun d hd => h d (List.mem_cons_of_mem e hd)) hi

theorem Bounded.replace {t : Table} (h : t.Bounded) (key : String) {i : Item} (hi : i.Bounded) :
    Bounded (t.replace key i) := by
  induction t with
  | nil => exact bounded_nil
  | cons e t ih =>
    have ht : Bounded t := fun d hd => h d (List.mem_cons_of_mem e hd)
    rw [Table.replace]
    split
    · exact List.forall_mem_cons.mpr ⟨hi, ht⟩
    · exact List.forall_mem_cons.mpr ⟨h e List.mem_cons_self, ih ht⟩

/-- A change of a table that adds no other numbers. -/
def Keeps (f : Table → Option Table) : Prop := ∀ t t', t.Bounded → f t = some t' → t'.Bounded

theorem Keeps.changeLast {f : Table → Option Table} (hf : Keeps f) {ts ts' : List Table}
    (h : ∀ t ∈ ts, t.Bounded) (heq : changeLast f ts = some ts') : ∀ t ∈ ts', t.Bounded := by
  fun_induction Table.changeLast f ts generalizing ts' with
  | case1 => cases heq
  | case2 t =>
    obtain ⟨u, hu, rfl⟩ := Option.map_eq_some_iff.mp heq
    exact List.forall_mem_singleton.mpr (hf t u (h t List.mem_cons_self) hu)
  | case3 t rest _ ih =>
    obtain ⟨us, hus, rfl⟩ := Option.map_eq_some_iff.mp heq
    obtain ⟨ht, hrest⟩ := List.forall_mem_cons.mp h
    exact List.forall_mem_cons.mpr ⟨ht, ih hrest hus⟩

/-- What a change adds no numbers to, a change at the end of a path adds none to either. -/
theorem Keeps.follow {made : Origin} {f : Origin → Table → Option Table} (hf : ∀ o, Keeps (f o))
    (path : List String) (origin : Origin) : Keeps (follow made f path origin) := by
  induction path generalizing origin with
  | nil => exact hf origin
  | cons key path ih =>
    intro t t' h heq
    rw [Table.follow] at heq
    split at heq
    · obtain ⟨child, hchild, hout⟩ := Option.bind_eq_some_iff.mp heq
      cases hout
      exact h.append key (.table (ih made [] child bounded_nil hchild))
    · next o child hlookup =>
      split at heq
      · cases heq
      · obtain ⟨child', hchild, hout⟩ := Option.bind_eq_some_iff.mp heq
        cases hout
        cases h.lookup hlookup with
        | table hold => exact h.replace key (.table (ih o child child' hold hchild))
    · next elements hlookup =>
      obtain ⟨elements', helements, hout⟩ := Option.bind_eq_some_iff.mp heq
      cases hout
      cases h.lookup hlookup with
      | tables hold => exact h.replace key (.tables ((ih .header).changeLast hold helements))
    · cases heq

theorem Bounded.insert {t t' : Table} (h : t.Bounded) {path : List String} {key : String}
    {i : Item} (hi : i.Bounded) (heq : t.insert path key i = some t') : t'.Bounded := by
  refine Keeps.follow (fun o u u' hu hout => ?_) path .header t t' h heq
  split at hout
  · cases hout
  · cases hout
    exact hu.append key hi

theorem Bounded.openTable {t t' : Table} (h : t.Bounded) {path : List String} {key : String}
    (heq : t.openTable path key = some t') : t'.Bounded := by
  refine Keeps.follow (fun o u u' hu hout => ?_) path .header t t' h heq
  split at hout
  · cases hout
    exact hu.append key (.table bounded_nil)
  · next child hlookup =>
    cases hout
    cases hu.lookup hlookup with
    | table hold => exact hu.replace key (.table hold)
  · cases hout

theorem Bounded.openElement {t t' : Table} (h : t.Bounded) {path : List String} {key : String}
    (heq : t.openElement path key = some t') : t'.Bounded := by
  refine Keeps.follow (fun o u u' hu hout => ?_) path .header t t' h heq
  split at hout
  · cases hout
    exact hu.append key (.tables (List.forall_mem_singleton.mpr bounded_nil))
  · next elements hlookup =>
    cases hout
    cases hu.lookup hlookup with
    | tables hold =>
      refine hu.replace key (.tables ?_)
      exact List.forall_mem_append.mpr ⟨hold, List.forall_mem_singleton.mpr bounded_nil⟩
  · cases hout

theorem Bounded.insertAt {t t' : Table} (h : t.Bounded) {current path : List String} {key : String}
    {i : Item} (hi : i.Bounded) (heq : t.insertAt current path key i = some t') : t'.Bounded :=
  Keeps.follow (fun _ _ _ hu hout => hu.insert hi hout) current .header t t' h heq

end Table

/-! ## Readers -/

theorem inRange_le {n m : Int} (h : inRange n = some m) : m ≤ Int64.maxValue.toInt := by
  obtain ⟨w, -, rfl⟩ := Option.map_eq_some_iff.mp h
  exact Int64.toInt_le w

theorem basedInteger_le {base : Nat} {isDigit : Char → Bool} {cs rest : List Char} {n : Int}
    (h : basedInteger base isDigit cs = some (n, rest)) : n ≤ Int64.maxValue.toInt := by
  obtain ⟨⟨ds, cs'⟩, -, h⟩ := Option.bind_eq_some_iff.mp h
  obtain ⟨m, hm, h⟩ := Option.bind_eq_some_iff.mp h
  cases h
  exact inRange_le hm

theorem integer_le {cs rest : List Char} {n : Int} (h : integer cs = some (n, rest)) :
    n ≤ Int64.maxValue.toInt := by
  unfold integer at h
  split at h
  · exact basedInteger_le h
  · exact basedInteger_le h
  · exact basedInteger_le h
  · obtain ⟨⟨ds, cs'⟩, -, h⟩ := Option.bind_eq_some_iff.mp h
    obtain ⟨m, hm, h⟩ := Option.bind_eq_some_iff.mp h
    cases h
    exact inRange_le hm

theorem scalar_le {cs rest : List Char} {n : Int} (h : scalar cs = some (.integer n, rest)) :
    n ≤ Int64.maxValue.toInt := by
  unfold scalar at h
  split at h
  iterate 4
    · obtain ⟨_, -, hout⟩ := Option.map_eq_some_iff.mp h
      cases hout
  · split at h
    · cases h
    · split at h
      · cases h
      · obtain ⟨⟨m, cs'⟩, hm, hout⟩ := Option.map_eq_some_iff.mp h
        cases hout
        exact integer_le hm

/-- What the three readers of items read holds bounded numbers only. -/
structure ItemsBounded (fuel : Nat) : Prop where
  item {room : Nat} {cs rest : List Char} {i : Item} :
    item fuel room cs = some (i, rest) → i.Bounded
  arrayItems {room : Nat} {acc : List Item} {cs rest : List Char} {i : Item} :
    (∀ a ∈ acc, a.Bounded) → arrayItems fuel room acc cs = some (i, rest) → i.Bounded
  inlineEntries {room : Nat} {t : Table} {cs rest : List Char} {i : Item} :
    t.Bounded → inlineEntries fuel room t cs = some (i, rest) → i.Bounded

theorem ItemsBounded.item_succ {fuel : Nat} (ih : ItemsBounded fuel) {room : Nat}
    {cs rest : List Char} {i : Item} (h : Toml.item (fuel + 1) room cs = some (i, rest)) :
    i.Bounded := by
  rw [Toml.item.eq_def] at h
  split at h
  · cases h
  · cases h
  · cases h
  · obtain ⟨cs', -, h⟩ := Option.bind_eq_some_iff.mp h
    cases ‹fuel + 1 = _›
    exact ih.arrayItems (by simp) h
  · cases ‹fuel + 1 = _›
    split at h
    · cases h
      exact .inline Table.bounded_nil
    · exact ih.inlineEntries Table.bounded_nil h
  · obtain ⟨⟨s, cs'⟩, hs, hout⟩ := Option.map_eq_some_iff.mp h
    cases hout
    exact .scalar fun n hn => scalar_le (hn ▸ hs)

theorem ItemsBounded.arrayItems_succ {fuel : Nat} (ih : ItemsBounded fuel) {room : Nat}
    {acc : List Item} {cs rest : List Char} {i : Item} (hacc : ∀ a ∈ acc, a.Bounded)
    (h : Toml.arrayItems (fuel + 1) room acc cs = some (i, rest)) : i.Bounded := by
  rw [Toml.arrayItems.eq_def] at h
  split at h
  · cases h
  · cases h
    exact .array fun a ha => hacc a (List.mem_reverse.mp ha)
  · cases ‹fuel + 1 = _›
    obtain ⟨⟨a, cs'⟩, ha, h⟩ := Option.bind_eq_some_iff.mp h
    have hmore := List.forall_mem_cons.mpr ⟨ih.item ha, hacc⟩
    obtain ⟨cs'', -, h⟩ := Option.bind_eq_some_iff.mp h
    split at h
    · obtain ⟨_, -, h⟩ := Option.bind_eq_some_iff.mp h
      exact ih.arrayItems hmore h
    · cases h
      exact .array fun b hb => hmore b (List.mem_reverse.mp hb)
    · cases h

theorem ItemsBounded.inlineEntries_succ {fuel : Nat} (ih : ItemsBounded fuel) {room : Nat}
    {t : Table} {cs rest : List Char} {i : Item} (ht : t.Bounded)
    (h : Toml.inlineEntries (fuel + 1) room t cs = some (i, rest)) : i.Bounded := by
  rw [Toml.inlineEntries.eq_def] at h
  obtain ⟨⟨k, _⟩, -, h⟩ := Option.bind_eq_some_iff.mp h
  obtain ⟨⟨a, _⟩, ha, h⟩ := Option.bind_eq_some_iff.mp h
  obtain ⟨t', ht', h⟩ := Option.bind_eq_some_iff.mp h
  have hmore : t'.Bounded := ht.insert (ih.item ha) ht'
  split at h
  · exact ih.inlineEntries hmore h
  · cases h
    exact .inline hmore
  · cases h

theorem itemsBounded (fuel : Nat) : ItemsBounded fuel := by
  induction fuel with
  | zero => exact ⟨nofun, nofun, nofun⟩
  | succ fuel ih => exact ⟨ih.item_succ, ih.arrayItems_succ, ih.inlineEntries_succ⟩

/-! ## Documents -/

/-- The item of an entry is bounded; headers have none. -/
def Statement.Bounded : Statement → Prop
  | .entry _ i => i.Bounded
  | _ => True

theorem statement_bounded {cs rest : List Char} {s : Statement}
    (h : statement cs = some (s, rest)) : s.Bounded := by
  unfold statement at h
  split at h
  · obtain ⟨_, -, h⟩ := Option.bind_eq_some_iff.mp h
    obtain ⟨_, -, h⟩ := Option.bind_eq_some_iff.mp h
    obtain ⟨_, -, h⟩ := Option.bind_eq_some_iff.mp h
    obtain ⟨_, -, h⟩ := Option.bind_eq_some_iff.mp h
    cases h
    trivial
  · obtain ⟨_, -, h⟩ := Option.bind_eq_some_iff.mp h
    obtain ⟨_, -, h⟩ := Option.bind_eq_some_iff.mp h
    obtain ⟨_, -, h⟩ := Option.bind_eq_some_iff.mp h
    cases h
    trivial
  · obtain ⟨_, -, h⟩ := Option.bind_eq_some_iff.mp h
    obtain ⟨⟨i, _⟩, hi, h⟩ := Option.bind_eq_some_iff.mp h
    obtain ⟨_, -, h⟩ := Option.bind_eq_some_iff.mp h
    cases h
    exact (itemsBounded _).item hi

theorem statements_bounded {fuel : Nat} {cs : List Char} {ss : List Statement}
    (h : statements fuel cs = some ss) : ∀ s ∈ ss, s.Bounded := by
  induction fuel generalizing cs ss with
  | zero => cases h
  | succ fuel ih =>
    rw [statements] at h
    split at h
    · cases h
      exact nofun
    · split at h
      · exact ih h
      · obtain ⟨⟨s, rest⟩, hs, h⟩ := Option.bind_eq_some_iff.mp h
        obtain ⟨ss', hss, h⟩ := Option.bind_eq_some_iff.mp h
        cases h
        exact List.forall_mem_cons.mpr ⟨statement_bounded hs, ih hss⟩

namespace Document

theorem apply_bounded {d d' : Document} (hd : d.root.Bounded) {s : Statement} (hs : s.Bounded)
    (h : d.apply s = some d') : d'.root.Bounded := by
  cases s with
  | table k =>
    obtain ⟨t, ht, hout⟩ := Option.bind_eq_some_iff.mp h
    cases hout
    exact hd.openTable ht
  | element k =>
    obtain ⟨t, ht, hout⟩ := Option.bind_eq_some_iff.mp h
    cases hout
    exact hd.openElement ht
  | entry k i =>
    obtain ⟨t, ht, hout⟩ := Option.bind_eq_some_iff.mp h
    cases hout
    exact hd.insertAt hs ht

theorem foldlM_apply_bounded {ss : List Statement} (hss : ∀ s ∈ ss, s.Bounded) {d d' : Document}
    (hd : d.root.Bounded) (h : ss.foldlM apply d = some d') : d'.root.Bounded := by
  induction ss generalizing d with
  | nil =>
    cases h
    exact hd
  | cons s ss ih =>
    obtain ⟨hs, hrest⟩ := List.forall_mem_cons.mp hss
    rw [List.foldlM_cons] at h
    obtain ⟨e, he, h⟩ := Option.bind_eq_some_iff.mp h
    exact ih hrest (apply_bounded hd hs he) h

/-- No text holds a number of more than 64 bits. -/
theorem read?_bounded {text : String} {t : Table} (h : read? text = some t) : t.Bounded := by
  obtain ⟨ss, hss, h⟩ := Option.bind_eq_some_iff.mp h
  obtain ⟨d, hd, hout⟩ := Option.bind_eq_some_iff.mp h
  cases hout
  exact foldlM_apply_bounded (statements_bounded hss) Table.bounded_nil hd

end Document

end ClosureMachine.Toml
