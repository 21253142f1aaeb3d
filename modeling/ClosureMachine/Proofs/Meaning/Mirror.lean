import ClosureMachine.Proofs.Machine.Actions
import ClosureMachine.Proofs.Meaning.Layout

/-!
A machine that stands for a world. Every frame of the world is stored at its place, and the globals
are the same by name. Then a variable is bound in the one where it is bound in the other
(`Mirrors.search_cases`), so both read the same (`Mirrors.lookup_cases`), and assignments and new
frames keep the picture (`Mirrors.assign_cases`, `Mirrors.enlarge`). So does giving up all frames
(`Mirrors.forget`).
-/

namespace ClosureMachine

namespace Layout

/-- The frame is stored at the place. -/
structure Stores (d : Layout) (b : Bindings) (r : EnvRef) : Prop where
  generation : r.addr.generation = d.heap.generation
  header : ∃ h ids, d.heap.cell? r.addr.offset = some (.environment h) ∧
    d.code.formals? h.names = some ids ∧ d.symbols.Spells b.names ids ∧
    h.length = b.contents.length
  length : b.names.length = b.contents.length
  values : ∀ i v, b.contents[i]? = some v →
    ∃ u, d.heap.cell? (r.addr.offset + 1 + i) = some (.value u) ∧ d.Holds v u

theorem Stores.mono {d d' : Layout} (hg : d.Grows d') {b : Bindings} {r : EnvRef}
    (h : d.Stores b r) (hc : ∀ i u, i < b.contents.length →
      d.heap.cell? (r.addr.offset + 1 + i) = some (.value u) →
      d'.heap.cell? (r.addr.offset + 1 + i) = some (.value u)) : d'.Stores b r where
  generation := h.generation.trans hg.heap.generation.symm
  header := by
    obtain ⟨head, ids, hh, hf, hs, hl⟩ := h.header
    exact ⟨head, ids, hg.heap.record _ _ hh rfl, hg.code.formals? hf, hs.mono hg.symbols, hl⟩
  length := h.length
  values i v hv := by
    obtain ⟨u, hu, hold⟩ := h.values i v hv
    exact ⟨u, hc i u (List.getElem?_eq_some_iff.mp hv).1 hu, hold.mono hg⟩

/-- The machine's heap and globals are those of the world. -/
structure Mirrors (d : Layout) (w : World) (m : Machine) : Prop where
  heap : m.heap = d.heap
  linked : d.heap.Linked 0
  limit : m.limit = none
  procedures : m.procedures = Arithmetic.procedures.map Prod.snd
  places : d.places.length = w.frames.length
  distinct : ∀ (n n' : Nat) r, d.places[n]? = some r → d.places[n']? = some r → n = n'
  frames : ∀ (n : Nat) b r, w.frames[n]? = some b → d.places[n]? = some r → d.Stores b r
  globals : ∀ name v, w.globals name = some v → ∃ id u, d.symbols.find? name = some id ∧
    m.globals.get? id = some u ∧ d.Holds v u
  bound : ∀ id u, m.globals.get? id = some u → ∃ name v, d.symbols.find? name = some id ∧
    w.globals name = some v
  unique : m.globals.Distinct

section

variable {d : Layout} {w : World} {m : Machine}

theorem Mirrors.congr (h : d.Mirrors w m) {m' : Machine} (hh : m'.heap = m.heap)
    (hg : m'.globals = m.globals) (hp : m'.primitives = m.primitives) (hl : m'.limit = m.limit) :
    d.Mirrors w m' where
  heap := hh.trans h.heap
  linked := h.linked
  limit := hl.trans h.limit
  procedures := (Machine.procedures_congr hp).trans h.procedures
  places := h.places
  distinct := h.distinct
  frames := h.frames
  globals := hg ▸ h.globals
  bound := hg ▸ h.bound
  unique := hg ▸ h.unique

theorem Mirrors.grows (h : d.Mirrors w m) {heap : Heap} (hk : m.heap.Keeps 0 heap) :
    d.Grows { d with heap } := d.grows_heap (h.heap ▸ hk)

/-- More cells at the end of the heap change nothing. -/
theorem Mirrors.extend (h : d.Mirrors w m) {m' : Machine} (hl : m'.heap.Linked 0)
    {cells : List Cell} (hh : m'.heap = m.heap.extend cells) (hg : m'.globals = m.globals)
    (hp : m'.primitives = m.primitives) (hm : m'.limit = m.limit) :
    ({ d with heap := m'.heap } : Layout).Mirrors w m' := by
  have hgrow : d.Grows { d with heap := m'.heap } := h.grows (hh ▸ .extend 0 m.heap cells)
  constructor
  case heap => rfl
  case linked => exact hl
  case limit => exact hm.trans h.limit
  case procedures => exact (Machine.procedures_congr hp).trans h.procedures
  case places => exact h.places
  case distinct => exact h.distinct
  case frames =>
    intro n b r hb hr
    refine (h.frames n b r hb hr).mono hgrow fun _ _ _ hc => ?_
    change m'.heap.cell? _ = _
    rw [hh]
    exact Heap.cell?_extend_old (h.heap ▸ hc)
  case globals =>
    intro name v hv
    obtain ⟨id, u, hid, hu, hold⟩ := h.globals name v hv
    exact ⟨id, u, hid, hg ▸ hu, hold.mono hgrow⟩
  case bound => exact hg ▸ h.bound
  case unique => exact hg ▸ h.unique

theorem Mirrors.frame_of_place (h : d.Mirrors w m) {n : Nat} {r : EnvRef}
    (hr : d.places[n]? = some r) : ∃ b, w.frames[n]? = some b ∧ d.Stores b r := by
  have hlt : n < w.frames.length := h.places ▸ (List.getElem?_eq_some_iff.mp hr).1
  exact ⟨_, List.getElem?_eq_getElem hlt, h.frames n _ r (List.getElem?_eq_getElem hlt) hr⟩

theorem Mirrors.unbound (h : d.Mirrors w m) {name : String} {id : SymbolId}
    (hid : d.symbols.find? name = some id) (hw : w.globals name = none) :
    m.globals.get? id = none := by
  cases hu : m.globals.get? id with
  | none => rfl
  | some u =>
    obtain ⟨name', v, hid', hv⟩ := h.bound id u hu
    rw [SymbolTable.find?_inj hid' hid, hw] at hv
    cases hv

/-! ## Variables -/

/-- A name and its id are bound at the same place, or both in no frame. -/
theorem Mirrors.search_cases (h : d.Mirrors w m) {name : String} {id : SymbolId}
    (hid : d.symbols.find? name = some id) {scope : Scope} {env : Option EnvRef}
    (hs : d.Spans scope env) (fuel : Nat) (hfuel : ∀ r ∈ env, r.addr.offset < fuel) :
    (∃ n i b r, w.find name scope = some (n, i) ∧ w.frames[n]? = some b ∧
        d.places[n]? = some r ∧ i < b.contents.length ∧
        Binding.search d.heap d.code id fuel env =
          .slot ⟨r.addr.offset + 1, b.contents.length, d.heap.generation⟩ i) ∨
      w.find name scope = none ∧ Binding.search d.heap d.code id fuel env = .free := by
  induction hs generalizing fuel with
  | nil => exact .inr ⟨rfl, by cases fuel <;> rfl⟩
  | @cons n scope r head hr hc hs ih =>
    obtain ⟨b, hb, hstore⟩ := h.frame_of_place hr
    obtain ⟨head', ids, hc', hf, hspell, hlen⟩ := hstore.header
    cases hc.symm.trans hc'
    have hlt := hfuel r rfl
    cases fuel with
    | zero => exact absurd hlt (Nat.not_lt_zero _)
    | succ fuel =>
      simp only [Binding.search, h.linked.load_env (Nat.zero_le _) hstore.generation hc, hf,
        World.find, hb, Option.bind_some, hspell.idxOf? hid]
      cases hi : b.names.idxOf? name with
      | some i =>
        have hlt' : i < b.names.length := by
          rw [List.idxOf?, List.findIdx?_eq_some_iff_getElem] at hi
          exact hi.1
        exact .inl ⟨n, i, b, r, rfl, hb, hr, hstore.length ▸ hlt', by rw [hlen]⟩
      | none =>
        refine ih fuel fun r' hr' => ?_
        have := (h.linked.link _ _ (Nat.zero_le _) hc r' hr').lt_bound
        omega

theorem Spans.lt_fuel {scope : Scope} {env : Option EnvRef} (h : d.Spans scope env) :
    ∀ r ∈ env, r.addr.offset < d.heap.used + 1 := by
  rintro r ⟨⟩
  cases h with
  | cons _ hc _ => exact Nat.lt_succ_of_lt (Heap.cell?_lt hc)

/-- A variable has the same value in both, or none in either. -/
theorem Mirrors.lookup_cases (h : d.Mirrors w m) {name : String} {id : SymbolId}
    (hid : d.symbols.find? name = some id) {scope : Scope} (hs : d.Spans scope m.regs.e) :
    (∃ v u, w.lookup name scope = some v ∧ m.lookup d.code id = .ok u ∧ d.Holds v u) ∨
      w.lookup name scope = none ∧ m.lookup d.code id = .error (.unboundVariable id) := by
  unfold World.lookup Machine.lookup Binding.find
  rw [h.heap]
  rcases h.search_cases hid hs _ hs.lt_fuel with
    ⟨n, i, b, r, hfind, hb, hr, hi, hsearch⟩ | ⟨hfind, hsearch⟩
  · have hstore := h.frames n b r hb hr
    obtain ⟨head, -, hc, -, -, hlen⟩ := hstore.header
    rw [← hlen] at hi hsearch
    obtain ⟨u, hu, hslice⟩ := h.linked.slice_getElem (Nat.zero_le _) hc hi
    rw [hlen] at hi
    obtain ⟨u', hu', hold⟩ := hstore.values i _ (List.getElem?_eq_getElem hi)
    cases hu.symm.trans hu'
    refine .inl ⟨b.contents[i], u, ?_, ?_, hold⟩
    · simp [hfind, hb, hi]
    · rw [Cell.tailLength] at hslice
      simp only [hsearch, hslice]
  · simp only [hfind, hsearch]
    cases hv : w.globals name with
    | some v =>
      obtain ⟨id', u, hid', hu, hold⟩ := h.globals name v hv
      cases hid.symm.trans hid'
      exact .inl ⟨v, u, rfl, by rw [hu], hold⟩
    | none => exact .inr ⟨rfl, by rw [h.unbound hid hv]⟩

/-! ## Changes -/

/-- Different frames have different cells. -/
theorem Mirrors.apart (h : d.Mirrors w m) {n n' i i' : Nat} {b b' : Bindings} {r r' : EnvRef}
    (hb : w.frames[n]? = some b) (hr : d.places[n]? = some r) (hb' : w.frames[n']? = some b')
    (hr' : d.places[n']? = some r') (hn : n ≠ n') (hi : i < b.contents.length)
    (hi' : i' < b'.contents.length) : r.addr.offset + 1 + i ≠ r'.addr.offset + 1 + i' := by
  have hstore := h.frames n b r hb hr
  have hstore' := h.frames n' b' r' hb' hr'
  obtain ⟨head, -, hc, -, -, hlen⟩ := hstore.header
  obtain ⟨head', -, hc', -, -, hlen'⟩ := hstore'.header
  rw [← hlen] at hi
  rw [← hlen'] at hi'
  refine h.linked.tails_disjoint (Nat.zero_le _) (Nat.zero_le _) hc hc' rfl rfl ?_ hi hi'
  intro hoff
  have heq : r' = r := by
    have hgen := hstore'.generation.trans hstore.generation.symm
    obtain ⟨⟨o', g'⟩⟩ := r'
    obtain ⟨⟨o, g⟩⟩ := r
    cases hoff
    cases hgen
    rfl
  exact hn (h.distinct n n' r hr (heq ▸ hr'))

/-- The frame after an assignment to one of its places. -/
theorem Stores.set {b : Bindings} {r : EnvRef} (h : d.Stores b r) {i : Nat}
    (hi : i < b.contents.length) {v : Content} {u : Value} (hv : d.Holds v u)
    (hk : d.heap.Keeps 0 (d.heap.setValue (r.addr.offset + 1 + i) u)) :
    ({ d with heap := d.heap.setValue (r.addr.offset + 1 + i) u } : Layout).Stores
      { b with contents := b.contents.set i v } r := by
  obtain ⟨head, ids, hc, hf, hspell, hlen⟩ := h.header
  obtain ⟨old, hold, -⟩ := h.values i _ (List.getElem?_eq_getElem hi)
  have hg := d.grows_heap hk
  refine ⟨h.generation, ⟨head, ids, hk.record _ _ hc rfl, hf, hspell, ?_⟩, ?_, ?_⟩
  · simpa using hlen
  · simpa using h.length
  · intro j v' hv'
    rw [List.getElem?_set] at hv'
    by_cases hj : i = j
    · subst hj
      simp only [↓reduceIte, hi, Option.some.injEq] at hv'
      cases hv'
      exact ⟨u, Heap.cell?_setValue_same _ _ _ (Heap.cell?_lt hold), hv.mono hg⟩
    · rw [if_neg hj] at hv'
      obtain ⟨u', hu', hold'⟩ := h.values j v' hv'
      refine ⟨u', ?_, hold'.mono hg⟩
      rw [← hu']
      exact Heap.cell?_setValue_ne _ _ _ (by omega)

theorem Mirrors.setLocal (h : d.Mirrors w m) {n i : Nat} {b : Bindings} {r : EnvRef}
    (hb : w.frames[n]? = some b) (hr : d.places[n]? = some r) (hi : i < b.contents.length)
    {v : Content} {u : Value} (hv : d.Holds v u) {heap : Heap}
    (hheap : heap = d.heap.setValue (r.addr.offset + 1 + i) u) :
    d.heap.Keeps 0 heap ∧
      ({ d with heap } : Layout).Mirrors (w.setLocal n i v) { m with heap } := by
  subst hheap
  have hstore := h.frames n b r hb hr
  obtain ⟨head, -, hc, -, -, hlen⟩ := hstore.header
  obtain ⟨old, hold, -⟩ := hstore.values i _ (List.getElem?_eq_getElem hi)
  have hk := Heap.Keeps.setSlot h.linked (Nat.zero_le _) hc (hlen ▸ hi) u
  have hg := d.grows_heap hk
  refine ⟨hk, ?_⟩
  constructor
  case heap => rfl
  case linked => exact h.linked.setValue hold u hk
  case limit => exact h.limit
  case procedures => exact h.procedures
  case places => simpa [World.setLocal] using h.places
  case distinct => exact h.distinct
  case frames =>
    intro n' b' r' hb' hr'
    simp only [World.setLocal, List.getElem?_modify] at hb'
    by_cases hn : n = n'
    · subst hn
      cases hr.symm.trans hr'
      simp only [hb, ↓reduceIte, Option.map_eq_map, Option.map_some, Option.some.injEq] at hb'
      cases hb'
      exact hstore.set hi hv hk
    · simp only [hn, ↓reduceIte, Option.map_eq_map, Option.map_id'] at hb'
      refine (h.frames n' b' r' hb' hr').mono hg fun j u' hj hu' => ?_
      rw [← hu']
      exact Heap.cell?_setValue_ne _ _ _ (h.apart hb hr hb' hr' hn hi hj)
  case globals =>
    intro name v' hv'
    obtain ⟨id, u', hid, hu', hold'⟩ := h.globals name v' hv'
    exact ⟨id, u', hid, hu', hold'.mono hg⟩
  case bound => exact h.bound
  case unique => exact h.unique

theorem Mirrors.setGlobal (h : d.Mirrors w m) {name : String} {id : SymbolId}
    (hid : d.symbols.find? name = some id) {v : Content} {u : Value} (hv : d.Holds v u)
    {g : Globals} (hset : m.globals.set? id u = some g) :
    d.Mirrors (w.setGlobal name v) { m with globals := g } := by
  have hg : ∀ k, g.get? k = if k = id then some u else m.globals.get? k :=
    fun _ => Globals.get?_of_set? hset
  refine { h with globals := ?_, bound := ?_, unique := h.unique.set? hset }
  · intro name' v' hv'
    simp only [World.setGlobal] at hv'
    split at hv'
    · next heq =>
      subst heq
      cases hv'
      exact ⟨id, u, hid, by rw [hg, if_pos rfl], hv⟩
    · next hne =>
      obtain ⟨id', u', hid', hu', hold⟩ := h.globals name' v' hv'
      refine ⟨id', u', hid', ?_, hold⟩
      rw [hg, if_neg, hu']
      rintro rfl
      exact hne (SymbolTable.find?_inj hid' hid)
  · intro k u' hu'
    rw [hg] at hu'
    split at hu'
    · next heq => exact ⟨name, v, heq ▸ hid, if_pos rfl⟩
    · obtain ⟨name', v', hid', hv'⟩ := h.bound k u' hu'
      simp only [World.setGlobal]
      by_cases hname : name' = name
      · exact ⟨name', v, hid', if_pos hname⟩
      · exact ⟨name', v', hid', by rw [if_neg hname, hv']⟩

/-- An assignment succeeds in both or fails in both. -/
theorem Mirrors.assign_cases (h : d.Mirrors w m) {name : String} {id : SymbolId}
    (hid : d.symbols.find? name = some id) {scope : Scope} (hs : d.Spans scope m.regs.e)
    {v : Content} {u : Value} (hv : d.Holds v u) :
    (∃ w' m', w.assign name v scope = some w' ∧ m.assign d.code id u = (.ok (), m') ∧
        m'.regs = m.regs ∧ d.heap.Keeps 0 m'.heap ∧
        ({ d with heap := m'.heap } : Layout).Mirrors w' m') ∨
      w.assign name v scope = none ∧
        m.assign d.code id u = (.error (.unboundVariable id), m) := by
  unfold World.assign Machine.assign Binding.find
  rw [h.heap]
  rcases h.search_cases hid hs _ hs.lt_fuel with
    ⟨n, i, b, r, hfind, hb, hr, hi, hsearch⟩ | ⟨hfind, hsearch⟩
  · obtain ⟨head, -, hc, -, -, hlen⟩ := (h.frames n b r hb hr).header
    have hset := h.linked.setAt_tail (Nat.zero_le _) hc (show i < head.length from hlen ▸ hi) u
    rw [Cell.tailLength, hlen] at hset
    obtain ⟨hk, hm⟩ := h.setLocal hb hr hi hv rfl
    simp only [hfind, hsearch, hset]
    exact .inl ⟨_, _, rfl, rfl, rfl, hk, hm⟩
  · simp only [hfind, hsearch]
    cases hw : w.globals name with
    | some old =>
      obtain ⟨id', u', hid', hu', -⟩ := h.globals name old hw
      cases hid.symm.trans hid'
      cases hset : m.globals.set? id u with
      | none =>
        rw [Globals.set?_eq_none_iff, hu'] at hset
        cases hset
      | some g =>
        have hm := h.setGlobal hid hv hset
        exact .inl ⟨_, _, rfl, rfl, rfl, .refl _ _, hm.congr h.heap.symm rfl rfl rfl⟩
    | none =>
      rw [(Globals.set?_eq_none_iff _ _ u).mpr (h.unbound hid hw)]
      exact .inr ⟨rfl, rfl⟩

/-- One more frame, stored at a new place. -/
theorem Mirrors.addFrame (h : d.Mirrors w m) {b : Bindings} {r : EnvRef} (hs : d.Stores b r)
    (hr : ∀ n : Nat, d.places[n]? ≠ some r) :
    ({ d with places := d.places ++ [r] } : Layout).Mirrors { w with frames := w.frames ++ [b] }
      m := by
  have hg : d.Grows { d with places := d.places ++ [r] } :=
    ⟨.refl _, .refl _, .refl _ _, List.prefix_append ..⟩
  have hplace : ∀ (n : Nat) r', (d.places ++ [r])[n]? = some r' →
      d.places[n]? = some r' ∨ n = d.places.length ∧ r' = r := by
    intro n r' hn
    rw [List.getElem?_append] at hn
    split at hn
    · exact .inl hn
    · obtain ⟨hlt, heq⟩ := List.getElem?_eq_some_iff.mp hn
      simp only [List.length_singleton, Nat.lt_one_iff] at hlt
      simp only [hlt, List.getElem_cons_zero] at heq
      exact .inr ⟨by omega, heq.symm⟩
  constructor
  case heap => exact h.heap
  case linked => exact h.linked
  case limit => exact h.limit
  case procedures => exact h.procedures
  case places => simp [h.places]
  case distinct =>
    intro n n' r' hn hn'
    rcases hplace n r' hn with hold | ⟨rfl, rfl⟩
    · rcases hplace n' r' hn' with hold' | ⟨-, rfl⟩
      · exact h.distinct n n' r' hold hold'
      · exact absurd hold (hr n)
    · rcases hplace n' r' hn' with hold' | ⟨rfl, -⟩
      · exact absurd hold' (hr n')
      · rfl
  case frames =>
    intro n b' r' hb hn
    rcases hplace n r' hn with hn | ⟨rfl, rfl⟩
    · have hlt : n < w.frames.length := h.places ▸ (List.getElem?_eq_some_iff.mp hn).1
      rw [List.getElem?_append_left hlt] at hb
      exact (h.frames n b' r' hb hn).mono hg fun _ _ _ hc => hc
    · rw [h.places, List.getElem?_concat_length] at hb
      cases hb
      exact hs.mono hg fun _ _ _ hc => hc
  case globals =>
    intro name v hv
    obtain ⟨id, u, hid, hu, hold⟩ := h.globals name v hv
    exact ⟨id, u, hid, hu, hold.mono hg⟩
  case bound => exact h.bound
  case unique => exact h.unique

/-- Binding parameters to arguments adds a frame. -/
theorem Mirrors.enlarge (h : d.Mirrors w m) {params : List String} {ids : List SymbolId}
    {f : FormalsId} {args : List Content} {vs : List Value} {parent : Link} {m' : Machine}
    (hf : d.code.formals? f = some ids) (hs : d.symbols.Spells params ids)
    (ha : d.HoldsAll args vs) (hlen : params.length = args.length) (hl : m'.heap.Linked 0)
    (hh : m'.heap = m.heap.extend (.environment ⟨f, parent, vs.length⟩ :: vs.map .value))
    (hg : m'.globals = m.globals) (hp : m'.primitives = m.primitives) (hm : m'.limit = m.limit) :
    ({ d with
      heap := m'.heap, places := d.places ++ [⟨⟨m.heap.used, m.heap.generation⟩⟩] } :
      Layout).Mirrors (w.enlarge params args) m' := by
  have hgrow : d.Grows { d with heap := m'.heap } := h.grows (hh ▸ .extend 0 m.heap _)
  refine (h.extend hl hh hg hp hm).addFrame ?_ ?_
  · have hhead := Heap.cell?_store_head m.heap (.environment ⟨f, parent, vs.length⟩) vs
    have hvalues := Heap.holdsValues_store m.heap (.environment ⟨f, parent, vs.length⟩) vs
    rw [← hh] at hhead hvalues
    refine ⟨by rw [hh]; rfl, ⟨_, ids, hhead, hf, hs, ha.length_eq.symm⟩, hlen, ?_⟩
    intro i v hv
    obtain ⟨u, hu, hold⟩ := ha.getElem? hv
    exact ⟨u, hvalues i u hu, hold.mono hgrow⟩
  · intro n hn
    obtain ⟨b, -, hstore⟩ := h.frame_of_place hn
    obtain ⟨head, -, hc, -⟩ := hstore.header
    rw [← h.heap] at hc
    exact absurd (Heap.cell?_lt hc) (Nat.lt_irrefl _)

/-- Code and symbols may grow. -/
theorem Mirrors.mono (h : d.Mirrors w m) {t : SymbolTable} {code : Code} (ht : d.symbols.Grows t)
    (hc : d.code.Grows code) : ({ d with symbols := t, code } : Layout).Mirrors w m := by
  have hg : d.Grows { d with symbols := t, code } := ⟨ht, hc, .refl _ _, List.prefix_refl _⟩
  refine { h with frames := ?_, globals := ?_, bound := ?_ }
  · exact fun n b r hb hr => (h.frames n b r hb hr).mono hg fun _ _ _ hcell => hcell
  · intro name v hv
    obtain ⟨id, u, hid, hu, hold⟩ := h.globals name v hv
    exact ⟨id, u, ht.find? hid, hu, hold.mono hg⟩
  · intro id u hu
    obtain ⟨name, v, hid, hv⟩ := h.bound id u hu
    exact ⟨name, v, ht.find? hid, hv⟩

/-- Names are declared: those that were unbound are now bound to no particular content. -/
theorem Mirrors.declare (h : d.Mirrors w m) {names : List String} {g : Globals}
    (hall : ∀ name ∈ names, ∃ id u, d.symbols.find? name = some id ∧ g.get? id = some u)
    (hkept : ∀ id u, m.globals.get? id = some u → g.get? id = some u)
    (hfresh : ∀ id u, g.get? id = some u → m.globals.get? id = some u ∨
      u = .unspecified ∧ ∃ name ∈ names, d.symbols.find? name = some id)
    (hunique : g.Distinct) : d.Mirrors (w.declare names) { m with globals := g } := by
  refine { h with globals := ?_, bound := ?_, unique := hunique }
  · intro name v hv
    simp only [World.declare] at hv
    cases hw : w.globals name with
    | some v' =>
      rw [hw] at hv
      cases hv
      obtain ⟨id, u, hid, hu, hold⟩ := h.globals name v hw
      exact ⟨id, u, hid, hkept id u hu, hold⟩
    | none =>
      rw [hw, Option.none_or] at hv
      split at hv
      · next hname =>
        cases hv
        obtain ⟨id, u, hid, hu⟩ := hall name hname
        refine ⟨id, u, hid, hu, ?_⟩
        rcases hfresh id u hu with hold | ⟨rfl, -⟩
        · rw [h.unbound hid hw] at hold
          cases hold
        · exact .datum trivial
      · cases hv
  · intro id u hu
    rcases hfresh id u hu with hold | ⟨-, name, hname, hid⟩
    · obtain ⟨name, v, hid, hv⟩ := h.bound id u hold
      exact ⟨name, v, hid, by simp [World.declare, hv]⟩
    · cases hw : w.globals name with
      | some v => exact ⟨name, v, hid, by simp [World.declare, hw]⟩
      | none => exact ⟨name, .datum .unspecified, hid, by simp [World.declare, hw, hname]⟩

theorem Holds.isBoxed {v : Content} {u : Value} (h : d.Holds v u) : u.isBoxed = !v.outlasts := by
  cases h with
  | @datum c u henc => cases c <;> cases u <;> first | rfl | cases henc
  | closure | continuation | procedure => rfl

/-- What outlasts the frames is held alike wherever symbols have the same ids. -/
theorem Holds.forget {v : Content} {u : Value} (h : d.Holds v u) (hv : v.outlasts = true)
    {d' : Layout} (hd : d'.symbols = d.symbols) : d'.Holds v u := by
  cases h with
  | datum henc => exact .datum (hd ▸ henc)
  | procedure => exact .procedure
  | closure | continuation => cases hv

/-- A new heap is taken, and globals that point into the old one are dropped. -/
theorem Mirrors.forget (h : d.Mirrors w m) {m' : Machine} (hl : m'.heap.Linked 0)
    (hg : m'.globals = m.globals.immediates) (hp : m'.primitives = m.primitives)
    (hm : m'.limit = m.limit) :
    ({ d with heap := m'.heap, places := [] } : Layout).Mirrors w.forget m' := by
  have hget : ∀ id, m'.globals.get? id = (m.globals.get? id).filter fun u => !u.isBoxed :=
    fun id => hg ▸ Globals.get?_immediates h.unique id
  constructor
  case heap => rfl
  case linked => exact hl
  case limit => exact hm.trans h.limit
  case procedures => exact (Machine.procedures_congr hp).trans h.procedures
  case places => rfl
  case distinct =>
    intro n n' r hr
    simp at hr
  case frames =>
    intro n b r hb hr
    simp at hr
  case globals =>
    intro name v hv
    obtain ⟨hv, hlast⟩ := Option.filter_eq_some_iff.mp hv
    obtain ⟨id, u, hid, hu, hold⟩ := h.globals name v hv
    refine ⟨id, u, hid, ?_, hold.forget hlast rfl⟩
    rw [hget, Option.filter_eq_some_iff]
    exact ⟨hu, by rw [hold.isBoxed, hlast]; rfl⟩
  case bound =>
    intro id u hu
    rw [hget, Option.filter_eq_some_iff] at hu
    obtain ⟨name, v, hid, hv⟩ := h.bound id u hu.1
    obtain ⟨id', u', hid', hu', hold⟩ := h.globals name v hv
    cases hid.symm.trans hid'
    cases hu'.symm.trans hu.1
    refine ⟨name, v, hid, Option.filter_eq_some_iff.mpr ⟨hv, ?_⟩⟩
    simpa [hold.isBoxed] using hu.2
  case unique => exact hg ▸ h.unique.immediates

end

end Layout

end ClosureMachine
