import ClosureMachine.Proofs.Machine.Growth
import ClosureMachine.Proofs.Machine.History
import ClosureMachine.Proofs.Machine.Renaming
import ClosureMachine.Session
import Mathlib.Data.List.Nodup

/-!
Ids. Instructions, parameter lists and host procedures are kept in the order in which they come, and
each is known by its position, of which one word is kept. So the ids that have been issued are no
more than a way to read the entries (`numbered`), and this stays true with every call
(`Code.Journal.Records.enter`, `Machine.Enlists.issued_eq`).

What follows for the holder of an id is `WordIds`. As many ids as there are words are all different,
and each of them leads to its own entry for ever after; from then on ids come back, and whoever gets
one finds the entry that had it first. `ids_are_unique_up_to_a_word` says so of every way to build
code and to use a machine; `ids_come_back_past_a_word` is the first call of each kind that goes
wrong.
-/

namespace ClosureMachine

/-! ## Positions in a word -/

section

variable {ι α : Type} {name : Nat → ι} {entries later : List α} {find? : ι → Option α}

/-- Entries with their ids: what `name` makes of the position, kept in one word. -/
def numbered (name : Nat → ι) (entries : List α) : List (ι × α) :=
  entries.zipIdx.map fun (x, i) => (name (i % wordLimit), x)

theorem numbered_concat (x : α) :
    numbered name (entries ++ [x]) =
      numbered name entries ++ [(name (entries.length % wordLimit), x)] := by
  simp [numbered, List.zipIdx_append]

theorem getElem?_numbered {i : Nat} {id : ι} {x : α} :
    (numbered name entries)[i]? = some (id, x) ↔
      entries[i]? = some x ∧ id = name (i % wordLimit) := by
  simp only [numbered, List.getElem?_map, List.getElem?_zipIdx, Nat.zero_add]
  cases entries[i]? <;> simp [and_comm, eq_comm]

/-- Ids depend on how many entries there are and on nothing else. -/
theorem ids_numbered :
    (numbered name entries).map Prod.fst =
      (List.range entries.length).map fun i => name (i % wordLimit) := by
  rw [List.range_eq_range', ← List.zipIdx_map_snd 0 entries, numbered, List.map_map, List.map_map]
  rfl

/-- A position looks like an earlier one just if it does not fit in a word. -/
theorem exists_lt_mod_eq_iff {i : Nat} :
    (∃ j < i, j % wordLimit = i % wordLimit) ↔ wordLimit ≤ i := by
  constructor
  · rintro ⟨j, hj, heq⟩
    by_contra hlt
    have hi : i < wordLimit := Nat.lt_of_not_le hlt
    rw [Nat.mod_eq_of_lt hi, Nat.mod_eq_of_lt (Nat.lt_trans hj hi)] at heq
    exact Nat.ne_of_lt hj heq
  · intro hi
    exact ⟨i - wordLimit, Nat.sub_lt_of_pos_le wordLimit_pos hi, (Nat.mod_eq_sub_mod hi).symm⟩

/-- Ids that were `issued` one after the other, each for an entry, and what is found under them. -/
structure WordIds (name : Nat → ι) (issued : List (ι × α)) (find? : ι → Option α) : Prop where
  /-- An id tells the position, as far as a word can. -/
  id_eq : ∀ {i id x}, issued[i]? = some (id, x) → id = name (i % wordLimit)
  /-- It is none of the earlier ones as long as words last, and no longer. -/
  fresh_iff : ∀ {i id x}, issued[i]? = some (id, x) →
    (id ∉ (issued.take i).map Prod.fst ↔ i < wordLimit)
  nodup_iff : (issued.map Prod.fst).Nodup ↔ issued.length ≤ wordLimit
  /-- As long as words last, an id leads to the entry it was issued for. -/
  kept : ∀ {i id x}, issued[i]? = some (id, x) → i < wordLimit → find? id = some x
  /-- In any case it leads to the entry that had it first. -/
  first : ∀ {i id x}, issued[i]? = some (id, x) →
    ∃ y, issued[i % wordLimit]? = some (id, y) ∧ find? id = some y

theorem fresh_numbered_iff (hname : Function.Injective name) {i : Nat} (hi : i < entries.length) :
    name (i % wordLimit) ∉ ((numbered name entries).take i).map Prod.fst ↔ i < wordLimit := by
  rw [List.map_take, ids_numbered, ← List.map_take, List.take_range,
    Nat.min_eq_left (Nat.le_of_lt hi), ← Nat.not_le, ← exists_lt_mod_eq_iff]
  simp [hname.eq_iff]

theorem nodup_numbered_iff (hname : Function.Injective name) :
    ((numbered name entries).map Prod.fst).Nodup ↔ entries.length ≤ wordLimit := by
  rw [ids_numbered, List.nodup_map_iff_inj_on List.nodup_range]
  constructor
  · intro hinj
    by_contra hlt
    have hlt : wordLimit < entries.length := Nat.lt_of_not_le hlt
    have hzero := hinj 0 (List.mem_range.mpr (Nat.zero_lt_of_lt hlt)) wordLimit
      (List.mem_range.mpr hlt) (by rw [Nat.zero_mod, Nat.mod_self])
    exact Nat.ne_of_lt wordLimit_pos hzero
  · intro hle i hi j hj heq
    have hi : i < wordLimit := Nat.lt_of_lt_of_le (List.mem_range.mp hi) hle
    have hj : j < wordLimit := Nat.lt_of_lt_of_le (List.mem_range.mp hj) hle
    have hij := hname heq
    rwa [Nat.mod_eq_of_lt hi, Nat.mod_eq_of_lt hj] at hij

/-- Under an id that was issued lies the first entry that it was issued for, whatever has been added
since. -/
theorem first_numbered (h : entries <+: later) (hfind : ∀ i, find? (name i) = later[i]?) {i : Nat}
    (hi : i < entries.length) :
    ∃ y, (numbered name entries)[i % wordLimit]? = some (name (i % wordLimit), y) ∧
      find? (name (i % wordLimit)) = some y := by
  have hmod : i % wordLimit < entries.length := Nat.lt_of_le_of_lt (Nat.mod_le _ _) hi
  refine ⟨entries.get ⟨_, hmod⟩, getElem?_numbered.mpr ⟨?_, ?_⟩, ?_⟩
  · exact List.getElem?_eq_getElem hmod
  · rw [Nat.mod_mod]
  · rw [hfind]
    exact List.prefix_iff_getElem?.mp h _ hmod

theorem wordIds_numbered (hname : Function.Injective name) (h : entries <+: later)
    (hfind : ∀ i, find? (name i) = later[i]?) : WordIds name (numbered name entries) find? where
  id_eq hi := (getElem?_numbered.mp hi).2
  fresh_iff hi := by
    obtain ⟨hx, rfl⟩ := getElem?_numbered.mp hi
    exact fresh_numbered_iff hname (List.getElem?_eq_some_iff.mp hx).1
  nodup_iff := by
    rw [nodup_numbered_iff hname]
    simp [numbered]
  kept hi hlt := by
    obtain ⟨hx, rfl⟩ := getElem?_numbered.mp hi
    obtain ⟨y, hy, hfound⟩ := first_numbered h hfind (List.getElem?_eq_some_iff.mp hx).1
    rw [Nat.mod_eq_of_lt hlt] at hy
    rw [hfound, ← (getElem?_numbered.mp hy).1, hx]
  first hi := by
    obtain ⟨hx, rfl⟩ := getElem?_numbered.mp hi
    exact first_numbered h hfind (List.getElem?_eq_some_iff.mp hx).1

/-- When the words are used up, the next id is the first one again, and so is what it leads to. -/
theorem WordIds.come_back {issued : List (ι × α)} (h : WordIds name issued find?) {id id' : ι}
    {x y : α} (hfirst : issued[0]? = some (id, x)) (hagain : issued[wordLimit]? = some (id', y)) :
    id' = id ∧ find? id = some x := by
  refine ⟨?_, h.kept hfirst wordLimit_pos⟩
  rw [h.id_eq hagain, h.id_eq hfirst, Nat.mod_self, Nat.zero_mod]

end

/-! ## Instructions and parameter lists -/

namespace Code

def Addition.node? : Addition → Option Node
  | .node n => some n
  | .formals _ => none

def Addition.formals? : Addition → Option (List SymbolId)
  | .node _ => none
  | .formals names => some names

/-- Code that is built from nothing, with the ids that its builder was given. -/
structure Journal where
  code : Code := .empty
  nodes : List (NodeId × Node) := []
  formals : List (FormalsId × List SymbolId) := []

/-- Make an addition and note its id. -/
def Journal.enter (j : Journal) : Addition → Journal
  | .node n =>
    { j with code := (j.code.append n).2, nodes := j.nodes ++ [((j.code.append n).1, n)] }
  | .formals names =>
    { j with
      code := (j.code.addFormals names).2
      formals := j.formals ++ [((j.code.addFormals names).1, names)] }

/-- Additions to empty code, one after the other. -/
def journal (additions : List Addition) : Journal := additions.foldl .enter {}

/-- The code consists of these additions, and the ids noted are their positions. -/
structure Journal.Records (j : Journal) (additions : List Addition) : Prop where
  nodes : j.code.nodes.toList = additions.filterMap Addition.node?
  formals : j.code.formals.toList = additions.filterMap Addition.formals?
  nodeIds : j.nodes = numbered id j.code.nodes.toList
  formalsIds : j.formals = numbered id j.code.formals.toList

theorem Journal.Records.enter {j : Journal} {additions : List Addition} (h : j.Records additions)
    (x : Addition) : (j.enter x).Records (additions ++ [x]) := by
  cases x with
  | node n =>
    refine ⟨?_, ?_, ?_, h.formalsIds⟩
    · simp [Journal.enter, append, h.nodes, Addition.node?]
    · simp [Journal.enter, append, h.formals, Addition.formals?]
    · simp [Journal.enter, append, size, h.nodeIds, numbered_concat]
  | formals names =>
    refine ⟨?_, ?_, h.nodeIds, ?_⟩
    · simp [Journal.enter, addFormals, h.nodes, Addition.node?]
    · simp [Journal.enter, addFormals, h.formals, Addition.formals?]
    · simp [Journal.enter, addFormals, h.formalsIds, numbered_concat]

theorem Journal.Records.enterAll {j : Journal} {before : List Addition} (h : j.Records before)
    (additions : List Addition) : (additions.foldl .enter j).Records (before ++ additions) := by
  induction additions generalizing j before with
  | nil => rwa [List.append_nil]
  | cons x additions ih =>
    rw [List.append_cons, List.foldl_cons]
    exact ih (h.enter x)

theorem journal_records (additions : List Addition) : (journal additions).Records additions := by
  have hempty : ({} : Journal).Records [] := ⟨rfl, rfl, rfl, rfl⟩
  exact hempty.enterAll additions

/-- Ids of instructions, at the time when they were issued and at any later time. -/
theorem wordIds_nodes (additions more : List Addition) :
    WordIds id (journal additions).nodes (journal (additions ++ more)).code.node? := by
  rw [(journal_records additions).nodeIds]
  refine wordIds_numbered Function.injective_id ?_ fun i => Array.getElem?_toList.symm
  rw [(journal_records _).nodes, (journal_records _).nodes, List.filterMap_append]
  exact List.prefix_append _ _

theorem wordIds_formals (additions more : List Addition) :
    WordIds id (journal additions).formals (journal (additions ++ more)).code.formals? := by
  rw [(journal_records additions).formalsIds]
  refine wordIds_numbered Function.injective_id ?_ fun i => Array.getElem?_toList.symm
  rw [(journal_records _).formals, (journal_records _).formals, List.filterMap_append]
  exact List.prefix_append _ _

end Code

/-! ## Host procedures -/

namespace Machine

/-- The host procedure that a value stands for. -/
def hostProcedure? (m : Machine) : Value → Option Primitive
  | .primitive id => m.primitive? id
  | _ => none

/-- One call on a machine that registers no host procedure. -/
inductive Act : Machine → Machine → Prop
  | start (m : Machine) (entry : NodeId) : Act m (m.start entry)
  | step (m : Machine) (code : Code) : Act m (m.step code).2
  | run (m : Machine) (code : Code) (entry : NodeId) (expired : Nat → Bool) (fuel : Nat) :
    Act m (m.runUntil code entry expired fuel).2
  | adjust (m : Machine) (globals : Globals) (limit : Option Nat) :
    Act m { m with globals, limit }
  | reset {m m' : Machine} (gens gens' : Generations) : m.reset gens = .ok (m', gens') → Act m m'

/-- Calls lead from `m` to another machine, and `issued` are the values that were given out for host
procedures on the way. -/
inductive Enlists (m : Machine) : List (Value × Primitive) → Machine → Prop
  | refl : Enlists m [] m
  | act {issued : List (Value × Primitive)} {m₁ m₂ : Machine} :
    Enlists m issued m₁ → Act m₁ m₂ → Enlists m issued m₂
  | define {issued : List (Value × Primitive)} {m₁ : Machine} (symbols : SymbolTable)
    (name : String) (arity : Arity) (run : HostProcedure) : Enlists m issued m₁ →
      Enlists m
        (issued ++
          [((m₁.definePrimitive symbols name arity run).1, ⟨(symbols.intern name).1, arity, run⟩)])
        (m₁.definePrimitive symbols name arity run).2.1

theorem proceed_fitted {m : Machine} (hw : m.heap.capacity < wordLimit) (code : Code)
    (expired : Nat → Bool) (fuel : Nat) : Fitted m (proceed code expired fuel m).2 := by
  induction fuel generalizing m with
  | zero => exact .refl m
  | succ fuel ih =>
    have hf := step_fitted hw code
    rw [proceed]
    split
    · exact .refl m
    · split
      · next hs => rwa [hs] at hf
      · next hs => rwa [hs] at hf
      · next hs =>
        rw [hs] at hf
        exact hf.trans (ih (hf.capacity ▸ hw))

theorem Act.fitted {m m' : Machine} (h : Act m m') (hw : m.heap.capacity < wordLimit) :
    Fitted m m' := by
  cases h with
  | start entry => exact ⟨rfl, rfl⟩
  | step code => exact step_fitted hw code
  | run code entry expired fuel =>
    obtain ⟨hp, hc⟩ := proceed_fitted (m := m.start entry) hw code expired fuel
    exact ⟨hp, hc⟩
  | adjust globals limit => exact ⟨rfl, rfl⟩
  | reset gens gens' hr =>
    obtain ⟨heap, hcap, -, rfl⟩ := reset_eq_ok hr
    exact ⟨rfl, hcap⟩

namespace Enlists

variable {m m' : Machine} {issued : List (Value × Primitive)}

theorem capacity_lt (h : m.Enlists issued m') (hw : m.heap.capacity < wordLimit) :
    m'.heap.capacity < wordLimit := by
  induction h with
  | refl => exact hw
  | act _ ha ih => exact (ha.fitted ih).capacity ▸ ih
  | define symbols name arity run _ ih => exact ih

/-- No call takes a host procedure away or moves it. -/
theorem primitives_prefix (h : m.Enlists issued m') (hw : m.heap.capacity < wordLimit) :
    m.primitives.toList <+: m'.primitives.toList := by
  induction h with
  | refl => exact List.prefix_refl _
  | act h ha ih => exact (ha.fitted (h.capacity_lt hw)).primitives ▸ ih
  | define symbols name arity run _ ih =>
    refine ih.trans ?_
    simp [definePrimitive]

/-- The values given out by a machine that began without host procedures. -/
theorem issued_eq (h : m.Enlists issued m') (hw : m.heap.capacity < wordLimit)
    (hm : m.primitives = #[]) : issued = numbered .primitive m'.primitives.toList := by
  induction h with
  | refl => rw [hm]; rfl
  | act h ha ih => exact (ha.fitted (h.capacity_lt hw)).primitives ▸ ih
  | define symbols name arity run _ ih => simp [definePrimitive, numbered_concat, ih]

theorem wordIds {m'' : Machine} {more : List (Value × Primitive)} (h : m.Enlists issued m')
    (h' : m'.Enlists more m'') (hw : m.heap.capacity < wordLimit) (hm : m.primitives = #[]) :
    WordIds .primitive issued m''.hostProcedure? := by
  rw [h.issued_eq hw hm]
  refine wordIds_numbered ?_ (h'.primitives_prefix (h.capacity_lt hw)) fun i => ?_
  · exact fun i j hij => Value.primitive.inj hij
  · exact Array.getElem?_toList.symm

end Enlists

end Machine

/-- Ids of instructions, of parameter lists and of host procedures, on whatever code and machine. As
many of a kind as there are words are all different, and each leads to what it was issued for, now
and later. The next ones come back in order and lead to what had them first. -/
theorem ids_are_unique_up_to_a_word (additions more : List Code.Addition) {settings : Settings}
    {gens gens' : Generations} {m₀ m m' : Machine} {issued issued' : List (Value × Primitive)}
    (hc : Machine.create settings gens = .ok (m₀, gens')) (h : m₀.Enlists issued m)
    (h' : m.Enlists issued' m') :
    WordIds id (Code.journal additions).nodes (Code.journal (additions ++ more)).code.node? ∧
      WordIds id (Code.journal additions).formals
        (Code.journal (additions ++ more)).code.formals? ∧
      WordIds .primitive issued m'.hostProcedure? := by
  obtain ⟨heap, hw, -, rfl⟩ := Machine.create_eq_ok hc
  exact ⟨Code.wordIds_nodes additions more, Code.wordIds_formals additions more,
    h.wordIds h' hw rfl⟩

/-- A machine with one host procedure, after a reset. -/
def renewedMachine : Machine where
  heap := ⟨4, #[], 0, 2⟩
  globals := ⟨[(0, .primitive 0)]⟩
  primitives := #[⟨0, .atLeast 0, Inspection.first⟩]

/-- Another host procedure is registered under the same name: the name has a new meaning, and the
value that was given out first has not. Instructions and parameter lists are counted apart. -/
theorem ids_are_unique_up_to_a_word_renewed :
    ∃ (m₀ m : Machine) (v w : Value) (p q : Primitive) (gens : Generations),
      Machine.create { arena := .ofBlocks 4 } {} = .ok (m₀, gens) ∧
      m₀.Enlists [(v, p), (w, q)] m ∧ p.name = q.name ∧ p.arity ≠ q.arity ∧
      m.globals.get? p.name = some w ∧
      v ≠ w ∧ m.hostProcedure? v = some p ∧ m.hostProcedure? w = some q ∧
      (Code.journal ([.node .halt, .formals [7], .node .ret] ++ [.node .apply])).code.node? 1 =
        some .ret ∧
      (Code.journal ([.node .halt, .formals [7], .node .ret] ++ [.node .apply])).code.formals? 0 =
        some [7] := by
  have hnew : ({} : SymbolTable).intern "f" = (0, ⟨#["f"]⟩) := by decide +kernel
  have hold : (⟨#["f"]⟩ : SymbolTable).intern "f" = (0, ⟨#["f"]⟩) := by decide +kernel
  have hc : Machine.create { arena := .ofBlocks 4 } {} = .ok ({ heap := ⟨4, #[], 0, 1⟩ }, ⟨2⟩) :=
    rfl
  have hfirst := (Machine.Enlists.refl (m := { heap := ⟨4, #[], 0, 1⟩ })).define {} "f"
    (.atLeast 0) Inspection.first
  simp only [Machine.definePrimitive, hnew] at hfirst
  have hrenewed : Machine.Enlists _ _ renewedMachine := hfirst.act (.reset ⟨2⟩ ⟨3⟩ rfl)
  have hall := hrenewed.define ⟨#["f"]⟩ "f" (.atLeast 1) Inspection.last
  simp only [Machine.definePrimitive, hold] at hall
  obtain ⟨hnodes, hformals, hprimitives⟩ := ids_are_unique_up_to_a_word
    [.node .halt, .formals [7], .node .ret] [.node .apply] hc hall .refl
  have hne : [Value.primitive 0, .primitive 1].Nodup := hprimitives.nodup_iff.mpr (by decide)
  exact ⟨_, _, .primitive 0, .primitive 1, _, _, _, hc, hall, rfl, by decide, by decide,
    fun heq => (List.nodup_cons.mp hne).1 (List.mem_singleton.mpr heq),
    hprimitives.kept (i := 0) rfl (by decide), hprimitives.kept (i := 1) rfl (by decide),
    hnodes.kept (i := 1) rfl (by decide), hformals.kept (i := 0) rfl (by decide)⟩

/-! ## Past the last word -/

/-- As many as there are words, and one more. -/
def surplus {α : Type} (x y : α) : List α := List.replicate wordLimit x ++ [y]

section

variable {α : Type} (x y : α)

theorem surplus_first : (surplus x y)[0]? = some x := by
  rw [surplus, List.getElem?_append_left (by rw [List.length_replicate]; exact wordLimit_pos),
    List.getElem?_replicate, if_pos wordLimit_pos]

theorem surplus_last : (surplus x y)[wordLimit]? = some y := by
  rw [surplus, List.getElem?_append_right (Nat.le_of_eq List.length_replicate),
    List.length_replicate, Nat.sub_self, List.getElem?_cons_zero]

/-- The last of a surplus gets the first id. -/
theorem surplus_comes_back {ι : Type} {name : Nat → ι} {find? : ι → Option α}
    (h : WordIds name (numbered name (surplus x y)) find?) :
    ∃ id, (numbered name (surplus x y))[0]? = some (id, x) ∧
      (numbered name (surplus x y))[wordLimit]? = some (id, y) ∧ find? id = some x := by
  have hfirst : (numbered name (surplus x y))[0]? = some (name (0 % wordLimit), x) :=
    getElem?_numbered.mpr ⟨surplus_first x y, rfl⟩
  have hlast : (numbered name (surplus x y))[wordLimit]? =
      some (name (wordLimit % wordLimit), y) := getElem?_numbered.mpr ⟨surplus_last x y, rfl⟩
  obtain ⟨hid, hfound⟩ := h.come_back hfirst hlast
  exact ⟨_, hfirst, hid ▸ hlast, hfound⟩

end

namespace Code

theorem nodes_journal (ns : List Node) : (journal (ns.map .node)).nodes = numbered id ns := by
  have hentries : (ns.map Addition.node).filterMap Addition.node? = ns := by
    rw [List.filterMap_map]
    exact List.filterMap_some
  rw [(journal_records _).nodeIds, (journal_records _).nodes, hentries]

theorem formals_journal (lists : List (List SymbolId)) :
    (journal (lists.map .formals)).formals = numbered id lists := by
  have hentries : (lists.map Addition.formals).filterMap Addition.formals? = lists := by
    rw [List.filterMap_map]
    exact List.filterMap_some
  rw [(journal_records _).formalsIds, (journal_records _).formals, hentries]

theorem nodes_come_back (n n' : Node) :
    ∃ id, (journal ((surplus n n').map .node)).nodes[0]? = some (id, n) ∧
      (journal ((surplus n n').map .node)).nodes[wordLimit]? = some (id, n') ∧
      (journal ((surplus n n').map .node)).code.node? id = some n := by
  have h := wordIds_nodes ((surplus n n').map .node) []
  rw [List.append_nil, nodes_journal] at h
  rw [nodes_journal]
  exact surplus_comes_back n n' h

theorem formals_come_back (names names' : List SymbolId) :
    ∃ id, (journal ((surplus names names').map .formals)).formals[0]? = some (id, names) ∧
      (journal ((surplus names names').map .formals)).formals[wordLimit]? = some (id, names') ∧
      (journal ((surplus names names').map .formals)).code.formals? id = some names := by
  have h := wordIds_formals ((surplus names names').map .formals) []
  rw [List.append_nil, formals_journal] at h
  rw [formals_journal]
  exact surplus_comes_back names names' h

end Code

namespace Machine

/-- The host procedures that a session is equipped with are registered in order. -/
theorem Enlists.equip {m m' : Machine} {issued : List (Value × Primitive)}
    (h : m.Enlists issued m') (symbols : SymbolTable)
    (procedures : List (String × Arity × HostProcedure)) :
    ∃ issued', m.Enlists issued' (Session.equip m' symbols procedures).1 ∧
      issued'.map (fun e => (e.2.arity, e.2.run)) =
        issued.map (fun e => (e.2.arity, e.2.run)) ++ procedures.map Prod.snd := by
  induction procedures generalizing m' symbols issued with
  | nil => exact ⟨issued, h, (List.append_nil _).symm⟩
  | cons p procedures ih =>
    obtain ⟨name, arity, run⟩ := p
    obtain ⟨issued', hall, hmap⟩ := ih (h.define symbols name arity run)
      (m'.definePrimitive symbols name arity run).2.2
    refine ⟨issued', hall, ?_⟩
    rw [hmap]
    simp

/-- All of the surplus may have one name, so that one symbol is enough. -/
theorem procedures_come_back {m : Machine} (hw : m.heap.capacity < wordLimit)
    (hm : m.primitives = #[]) (name : String) (x y : Arity × HostProcedure) :
    ∃ (issued : List (Value × Primitive)) (m' : Machine) (v : Value) (p q : Primitive),
      m.Enlists issued m' ∧ issued[0]? = some (v, p) ∧ issued[wordLimit]? = some (v, q) ∧
      m'.hostProcedure? v = some p ∧ p.arity = x.1 ∧ q.arity = y.1 := by
  obtain ⟨issued, hall, hmap⟩ := (Enlists.refl (m := m)).equip {} (surplus (name, x) (name, y))
  rw [List.map_nil, List.nil_append] at hmap
  have hfirst : (issued.map fun e => (e.2.arity, e.2.run))[0]? = some x := by
    rw [hmap, List.getElem?_map, surplus_first, Option.map_some]
  have hlast : (issued.map fun e => (e.2.arity, e.2.run))[wordLimit]? = some y := by
    rw [hmap, List.getElem?_map, surplus_last, Option.map_some]
  rw [List.getElem?_map, Option.map_eq_some_iff] at hfirst hlast
  obtain ⟨⟨v, p⟩, hv, rfl⟩ := hfirst
  obtain ⟨⟨w, q⟩, hq, rfl⟩ := hlast
  obtain ⟨rfl, hfound⟩ := (hall.wordIds .refl hw hm).come_back hv hq
  exact ⟨issued, _, w, p, q, hall, hv, hq, hfound, rfl, rfl⟩

end Machine

/-- One instruction, parameter list or host procedure more than there are words gets the id of the
first of its kind, and is not what is found there. -/
theorem ids_come_back_past_a_word :
    (∃ id, (Code.journal ((surplus Node.halt .ret).map .node)).nodes[0]? = some (id, .halt) ∧
      (Code.journal ((surplus Node.halt .ret).map .node)).nodes[wordLimit]? = some (id, .ret) ∧
      (Code.journal ((surplus Node.halt .ret).map .node)).code.node? id = some .halt) ∧
    (∃ id, (Code.journal ((surplus [] [0]).map .formals)).formals[0]? = some (id, []) ∧
      (Code.journal ((surplus [] [0]).map .formals)).formals[wordLimit]? = some (id, [0]) ∧
      (Code.journal ((surplus [] [0]).map .formals)).code.formals? id = some []) ∧
    ∃ (m₀ m : Machine) (gens : Generations) (issued : List (Value × Primitive)) (v : Value)
      (p q : Primitive), Machine.create { arena := .ofBlocks 1 } {} = .ok (m₀, gens) ∧
        m₀.Enlists issued m ∧ issued[0]? = some (v, p) ∧ issued[wordLimit]? = some (v, q) ∧
        m.hostProcedure? v = some p ∧ p.arity ≠ q.arity := by
  have hc : Machine.create { arena := .ofBlocks 1 } {} = .ok ({ heap := ⟨1, #[], 0, 1⟩ }, ⟨2⟩) :=
    rfl
  obtain ⟨issued, m, v, p, q, hall, hp, hq, hfound, hpa, hqa⟩ :=
    Machine.procedures_come_back (m := { heap := ⟨1, #[], 0, 1⟩ }) (by decide) rfl "f"
      (.atLeast 0, Inspection.first) (.atLeast 1, Inspection.first)
  refine ⟨Code.nodes_come_back .halt .ret, Code.formals_come_back [] [0],
    _, m, _, issued, v, p, q, hc, hall, hp, hq, hfound, ?_⟩
  rw [hpa, hqa]
  decide

end ClosureMachine
