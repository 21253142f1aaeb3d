import ClosureMachine.Proofs.Heap.Lexical
import ClosureMachine.Proofs.Machine.Assignment

/-!
Variables have lexical scope. In the arena this is `Formed.find_eq_iff`: the search for a name goes
through the frames of an environment from the innermost outward. A machine makes environments by
entering closures: the parameters are found in the new frame (`Scoped.find_parameter`), and all
other names where the closure finds them (`Scoped.find_outer`), since a frame that is stored later
changes nothing for those before it (`Heap.search_extend`).
-/

namespace ClosureMachine

namespace Heap

theorem load?_extend {heap : Heap} {r : EnvRef} (h : r.addr.offset < heap.used)
    (cells : List Cell) : EnvFrame.load? (heap.extend cells) r = EnvFrame.load? heap r := by
  have hget : (heap.extend cells).get? r = heap.get? r := by
    rw [get?_storable, get?_storable, cell?_extend, if_pos h, extend_generation]
  rw [EnvFrame.load?, EnvFrame.load?, hget]

/-- What is stored behind an environment does not change what is found in it. -/
theorem search_extend {heap : Heap} (hd : heap.Descends) (cells : List Cell) (code : Code)
    (var : SymbolId) {n n' : Nat} {env : Option EnvRef} (hu : ∀ r ∈ env, r.addr.offset < heap.used)
    (hn : ∀ r ∈ env, r.addr.offset < n) (hn' : ∀ r ∈ env, r.addr.offset < n') :
    Binding.search (heap.extend cells) code var n env = Binding.search heap code var n' env := by
  induction n generalizing n' env with
  | zero =>
    cases env with
    | none => cases n' <;> rfl
    | some r => exact absurd (hn r rfl) (Nat.not_lt_zero _)
  | succ n ih =>
    cases env with
    | none => cases n' <;> rfl
    | some r =>
      have hr := hn r rfl
      have hr' := hn' r rfl
      obtain ⟨k, rfl⟩ := Nat.exists_eq_succ_of_ne_zero (Nat.ne_zero_of_lt hr')
      rw [Binding.search, Binding.search, load?_extend (hu r rfl)]
      cases hload : EnvFrame.load? heap r with
      | none => rfl
      | some f =>
        have hparent : ∀ p ∈ f.parent, p.addr.offset < r.addr.offset := hd r f hload
        have hsame : Binding.search (heap.extend cells) code var n f.parent =
            Binding.search heap code var k f.parent :=
          ih (fun p hp => Nat.lt_trans (hparent p hp) (hu r rfl))
            (fun p hp => Nat.lt_of_lt_of_le (hparent p hp) (Nat.le_of_lt_succ hr))
            (fun p hp => Nat.lt_of_lt_of_le (hparent p hp) (Nat.le_of_lt_succ hr'))
        simp only [hsame]

theorem Run.slice_extend {heap : Heap} {o : Nat} {s : Slice Value} (h : heap.Run o s)
    (hl : heap.unlinked.Linked 0) (cells : List Cell) :
    (heap.extend cells).slice? s = heap.slice? s := by
  obtain ⟨vs, hlen, hvs, hslice⟩ := h.slice hl
  obtain ⟨c, -, -, rfl⟩ := h
  rw [hslice]
  exact (slice?_eq_some_iff rfl vs).mpr ⟨hlen, fun i v hi => cell?_extend_old (hvs i v hi)⟩

end Heap

namespace Machine

variable {m m' : Machine} {code : Code} {ref : Ref Closure} {c : Closure} {names : List SymbolId}

/-- A step that enters a closure. -/
theorem step_apply_closure (hw : m.heap.capacity < wordLimit)
    (hn : code.node? m.regs.x = some .apply) (ha : m.regs.a = .closure ref)
    (h : m.step code = (.ok .running, m')) :
    ∃ c names, m.heap.get? ref = some c ∧ code.formals? c.formals = some names ∧
      names.length = m.regs.r.length ∧ m.regs.r.length + 1 ≤ m.heap.remaining ∧
      m' = m.tick.entered c := by
  cases hl : m.exhaustedLimit? with
  | some limit =>
    rw [step, hl] at h
    cases h
  | none =>
    rw [step_eq_execute hl hn] at h
    have happly : m.tick.apply code = m.tick.applyClosure code ref := by
      have ha' : m.tick.regs.a = .closure ref := ha
      rw [apply, ha']
    rw [execute, happly] at h
    cases hc : m.heap.get? ref with
    | none =>
      have hc' : m.tick.heap.get? ref = none := hc
      rw [applyClosure, hc'] at h
      cases h
    | some c =>
      have hc' : m.tick.heap.get? ref = some c := hc
      cases hnames : code.formals? c.formals with
      | none =>
        rw [applyClosure, hc'] at h
        simp only [hnames] at h
        cases h
      | some names =>
        rw [applyClosure_eq (m := m.tick) hw hc' hnames] at h
        split at h
        · cases h
        · next harity =>
          split at h
          · cases h
          · next hfit =>
            cases h
            exact ⟨c, names, rfl, hnames, Decidable.not_not.mp harity, Nat.not_lt.mp hfit, rfl⟩

/-- The environment of a closure is stored. -/
theorem Scoped.closure_env (h : m.Scoped) (hc : m.heap.get? ref = some c) :
    (∀ r ∈ c.env, r.addr.offset < m.heap.used) ∧
      (Link.ofRef? c.env).resolve m.heap.generation = c.env := by
  have hl : m.heap.unlinked.Linked 0 := h.rooted.linked
  rw [← Heap.get?_closure_unlinked] at hc
  have henv := hl.closure_env hc (Nat.zero_le _)
  refine ⟨fun r hr => ?_, hl.resolve_env henv⟩
  rw [← Heap.unlinked_used]
  exact (henv r hr).lt_bound

/-- The values that a closure has been entered with. -/
def entrySlots (m : Machine) : Slice Value :=
  ⟨m.heap.used + 1, m.regs.r.length, m.heap.generation⟩

theorem Scoped.load?_entered (h : m.Scoped) (hc : m.heap.get? ref = some c)
    (hfit : m.regs.r.length + 1 ≤ m.heap.remaining) :
    EnvFrame.load? (m.entered c).heap ⟨⟨m.heap.used, m.heap.generation⟩⟩ =
      some ⟨c.formals, m.entrySlots, c.env⟩ := by
  have hw := h.capacity_lt
  rw [Arena.remaining] at hfit
  refine EnvFrame.load?_of_get? ?_ ?_ (h.closure_env hc).2
  · exact (Heap.get?_environment_iff _ _ _).mpr ⟨rfl, Heap.cell?_store_head _ _ _⟩
  · change m.heap.used + 1 + m.regs.r.length ≤ wordLimit - 1
    omega

/-- Looking a name up begins in the new frame. -/
theorem Scoped.find_entered (h : m.Scoped) (hc : m.heap.get? ref = some c)
    (hfit : m.regs.r.length + 1 ≤ m.heap.remaining)
    (hnames : code.formals? c.formals = some names) (var : SymbolId) :
    Binding.find (m.entered c).heap code (m.entered c).regs.e var =
      match names.idxOf? var with
      | some i => .slot m.entrySlots i
      | none =>
        Binding.search (m.entered c).heap code var (m.heap.used + m.regs.r.length + 1) c.env := by
  have hused : (m.entered c).heap.used = m.heap.used + m.regs.r.length + 1 := by
    change (m.heap.extend _).used = _
    rw [Heap.extend_used, List.length_cons, List.length_map]
    rfl
  rw [Binding.find, hused]
  change Binding.search (m.entered c).heap code var _ (some ⟨⟨m.heap.used, m.heap.generation⟩⟩) = _
  cases hidx : names.idxOf? var <;>
    simp only [Binding.search, h.load?_entered hc hfit, hnames, hidx]

theorem slice?_entered (m : Machine) (c : Closure) :
    (m.entered c).heap.slice? m.entrySlots = some m.regs.r :=
  (Heap.slice?_eq_some_iff rfl _).mpr ⟨rfl, Heap.holdsValues_store _ _ _⟩

/-- A parameter that is not repeated has the argument at its place as its value. -/
theorem Scoped.lookup_parameter (h : m.Scoped) (hc : m.heap.get? ref = some c)
    (hfit : m.regs.r.length + 1 ≤ m.heap.remaining)
    (hnames : code.formals? c.formals = some names) (hnodup : names.Nodup) {i : Nat}
    {var : SymbolId} (hi : names[i]? = some var) {v : Value} (hv : m.regs.r[i]? = some v) :
    (m.entered c).lookup code var = .ok v := by
  have hindex : names.idxOf? var = some i := by
    refine idxOf?_eq_some_iff_first.mpr ⟨hi, fun j hj hvar => ?_⟩
    obtain ⟨hlt, -⟩ := List.getElem?_eq_some_iff.mp hi
    have hsame := (List.getElem?_inj (Nat.lt_trans hj hlt) hnodup).mp (hvar.trans hi.symm)
    exact Nat.ne_of_lt hj hsame
  have hfind := h.find_entered hc hfit hnames var
  rw [hindex] at hfind
  simp only [lookup, hfind, slice?_entered, Option.bind_some, hv]

/-- A name that is no parameter is found where the closure finds it. -/
theorem Scoped.find_outer (h : m.Scoped) (hc : m.heap.get? ref = some c)
    (hfit : m.regs.r.length + 1 ≤ m.heap.remaining)
    (hnames : code.formals? c.formals = some names) {var : SymbolId} (hvar : var ∉ names) :
    Binding.find (m.entered c).heap code (m.entered c).regs.e var =
      Binding.find m.heap code c.env var := by
  have hold := (h.closure_env hc).1
  rw [h.find_entered hc hfit hnames, List.idxOf?_eq_none_iff.mpr hvar]
  refine Heap.search_extend h.descends _ code var hold (fun r hr => ?_)
    fun r hr => Nat.lt_succ_of_lt (hold r hr)
  have := hold r hr
  omega

/-- And it has the value that it has there. -/
theorem Scoped.lookup_outer (h : m.Scoped) (hc : m.heap.get? ref = some c)
    (hfit : m.regs.r.length + 1 ≤ m.heap.remaining)
    (hnames : code.formals? c.formals = some names) {var : SymbolId} (hvar : var ∉ names) :
    (m.entered c).lookup code var = (m.within c.env).lookup code var := by
  have hfind := h.find_outer hc hfit hnames hvar
  have hwithin : Binding.find (m.within c.env).heap code (m.within c.env).regs.e var =
      Binding.find m.heap code c.env var := rfl
  cases hb : Binding.find m.heap code c.env var with
  | slot s j =>
    obtain ⟨r, f, -, hf, rfl⟩ := Heap.search_sound.1 s j hb
    have hl : m.heap.unlinked.Linked 0 := h.rooted.linked
    have hslice : (m.entered c).heap.slice? f.values = (m.within c.env).heap.slice? f.values :=
      (Heap.run_of_load_env hl hf).slice_extend hl _
    simp only [lookup, hfind, hwithin, hb, hslice]
  | free =>
    have hglobals : (m.entered c).globals = (m.within c.env).globals := rfl
    simp only [lookup, hfind, hwithin, hb, hglobals]
  | broken => simp only [lookup, hfind, hwithin, hb]
  | endless => simp only [lookup, hfind, hwithin, hb]

end Machine

/-- Variables have lexical scope. In any arena with environment frames bound one inside the other,
the frames from an environment outward come to an end, the search for a name needs no more steps
than there are frames, and it finds what the name means in them; from a reference of another
generation it finds nothing. After a closure has been applied, each of its parameters has the
argument at its place as its value, if the parameters are distinct, and all other names are found
where the closure finds them and have the value that they have there. -/
theorem lookup_has_lexical_scope :
    (∀ (l : Ledger Cell) (fs : List BoundFrame), Scopes l fs → ∀ (code : Code) (var : SymbolId),
      (∀ env, Within fs env →
        (∃ chain, Chain fs env chain) ∧
        ∀ chain, Chain fs env chain →
          (∀ fuel, chain.length ≤ fuel →
            Binding.search l.arena code var fuel env = Binding.find l.arena code env var) ∧
          ∀ b, Binding.find l.arena code env var = b ↔ Resolves code var chain b) ∧
      ∀ r : EnvRef, r.addr.generation ≠ l.arena.generation →
        Binding.find l.arena code (some r) var = .broken) ∧
    ∀ (m m' : Machine) (code : Code) (ref : Ref Closure), m.Reachable →
      code.node? m.regs.x = some .apply → m.regs.a = .closure ref →
      m.step code = (.ok .running, m') →
        ∃ c names, m.heap.get? ref = some c ∧ code.formals? c.formals = some names ∧
          names.length = m.regs.r.length ∧
          (names.Nodup → ∀ (i : Nat) (var : SymbolId) (v : Value), names[i]? = some var →
            m.regs.r[i]? = some v → m'.lookup code var = .ok v) ∧
          ∀ var ∉ names,
            Binding.find m'.heap code m'.regs.e var = Binding.find m.heap code c.env var ∧
            m'.lookup code var = (m.within c.env).lookup code var := by
  constructor
  · intro l fs h code var
    have hformed := h.formed
    refine ⟨fun env henv => ⟨hformed.exists_chain henv, fun chain hc => ⟨?_, ?_⟩⟩, ?_⟩
    · exact fun fuel hfuel => hformed.search_eq_find hc hfuel
    · exact hformed.find_eq_iff hc
    · exact fun r hr => find_of_stale hr code var
  · intro m m' code ref hm hnode ha hstep
    have hscoped : m.tick.Scoped := hm.scoped.congr rfl rfl
    obtain ⟨c, names, hc, hnames, harity, hfit, rfl⟩ :=
      Machine.step_apply_closure hm.scoped.capacity_lt hnode ha hstep
    refine ⟨c, names, hc, hnames, harity, ?_, ?_⟩
    · exact fun hnodup i var v hi hv => hscoped.lookup_parameter hc hfit hnames hnodup hi hv
    · exact fun var hvar =>
        ⟨hscoped.find_outer hc hfit hnames hvar, hscoped.lookup_outer hc hfit hnames hvar⟩

/-- Calls a procedure of one argument, which calls an inner procedure of two. -/
def nestedCode : Code where
  nodes := #[.constant (.int 1) 1, .argument 2, .close 0 4 3, .apply, .constant (.int 20) 5,
    .argument 6, .constant (.int 30) 7, .argument 8, .close 1 10 9, .apply, .halt]
  formals := #[[7], [8, 9]]

/-- The inner procedure is about to be applied. -/
def nestedMachine : Machine where
  heap := ⟨16, #[.closure ⟨0, 4, none⟩, .environment ⟨0, ⟨0⟩, 1⟩, .value (.int 1),
    .closure ⟨1, 10, some ⟨⟨1, 1⟩⟩⟩], 4, 1⟩
  regs := { a := .closure ⟨⟨3, 1⟩⟩, x := 9, e := some ⟨⟨1, 1⟩⟩, collected := [.int 30, .int 20] }
  stats := { instructions := 9 }

theorem nestedMachine_reachable : nestedMachine.Reachable := by
  have hnew : Machine.Reachable { heap := ⟨16, #[], 0, 1⟩ } :=
    @Machine.Reachable.create { arena := .ofBlocks 16 } {} ⟨2⟩ _ rfl
  have houter := (((hnew.start 0).step nestedCode).step nestedCode).step nestedCode
  have hinner := (((houter.step nestedCode).step nestedCode).step nestedCode).step nestedCode
  exact (hinner.step nestedCode).step nestedCode

/-- The frame of the outer procedure and, inside it, that of the inner one. -/
def nestedFrames : List BoundFrame :=
  [⟨⟨⟨2, 1⟩⟩, 1, 2, some ⟨⟨0, 1⟩⟩⟩, ⟨⟨⟨0, 1⟩⟩, 0, 1, none⟩]

/-- A heap with the frames of both procedures. -/
def nestedHeap : Heap :=
  ⟨8, #[.environment ⟨0, .none, 1⟩, .value (.int 7), .environment ⟨1, ⟨1⟩, 2⟩, .value (.int 20),
    .value (.int 30)], 5, 1⟩

/-- A value is assigned to after both frames were bound. -/
theorem nestedFrames_scopes :
    ∃ l : Ledger Cell, Scopes l nestedFrames ∧ l.arena.generation = 1 ∧
      l.arena.slice? ⟨3, 2, 1⟩ = some [Value.int 20, .int 31] := by
  have hc : Arena.create 8 {} = .ok ((⟨8, #[], 0, 1⟩ : Heap), ⟨2⟩) := rfl
  have houter : Scopes oneBinding [⟨⟨⟨0, 1⟩⟩, 0, 1, none⟩] :=
    @Scopes.bind ⟨⟨8, #[], 0, 1⟩, []⟩ [] 0 [.int 7] none ⟨⟨0, 1⟩⟩ oneBinding.arena
      (.start (.create hc)) nofun rfl
  have hinner := @Scopes.bind oneBinding _ 1 [.int 20, .int 30] (some ⟨⟨0, 1⟩⟩) ⟨⟨2, 1⟩⟩ nestedHeap
    houter (fun r hr => ⟨_, List.mem_singleton_self _, Option.some.inj hr⟩) rfl
  have hassign := Ledger.Move.setAt nestedHeap []
    (.head .environment ⟨⟨2, 1⟩⟩ ⟨1, ⟨1⟩, 2⟩ :: oneBinding.entries)
    .value ⟨3, 2, 1⟩ [.int 20, .int 30] 1 (.int 31)
  have hreach := hinner.formed.reachable.move hassign
  refine ⟨_, hinner.other hassign fun f hf => hreach.unassigned ?_ Nat.one_pos, rfl, rfl⟩
  rcases List.mem_pair.mp hf with rfl | rfl
  · exact List.mem_cons_of_mem _ List.mem_cons_self
  · refine List.mem_cons_of_mem _ (List.mem_cons_of_mem _ ?_)
    exact List.mem_cons_of_mem _ List.mem_cons_self

/-- From the inner frame, the name of the outer parameter is found in the outer frame, and the
second parameter of the inner procedure at its place; an unknown name is free. In the machine, the
inner parameters have the arguments as their values, and the outer one keeps its own. -/
theorem lookup_has_lexical_scope_nested :
    (∃ l : Ledger Cell, Scopes l nestedFrames ∧ Within nestedFrames (some ⟨⟨2, 1⟩⟩) ∧
      Binding.find l.arena nestedCode (some ⟨⟨2, 1⟩⟩) 7 = .slot ⟨1, 1, 1⟩ 0 ∧
      Binding.find l.arena nestedCode (some ⟨⟨2, 1⟩⟩) 9 = .slot ⟨3, 2, 1⟩ 1 ∧
      Binding.find l.arena nestedCode (some ⟨⟨2, 1⟩⟩) 5 = .free ∧
      Binding.find l.arena nestedCode (some ⟨⟨2, 3⟩⟩) 7 = .broken) ∧
    ∃ m', nestedMachine.Reachable ∧ nestedMachine.step nestedCode = (.ok .running, m') ∧
      [8, 9].Nodup ∧ m'.lookup nestedCode 8 = .ok (.int 20) ∧
      m'.lookup nestedCode 9 = .ok (.int 30) ∧ m'.lookup nestedCode 7 = .ok (.int 1) := by
  obtain ⟨hfind, happly⟩ := lookup_has_lexical_scope
  constructor
  · obtain ⟨l, hl, hg, -⟩ := nestedFrames_scopes
    have henv : Within nestedFrames (some ⟨⟨2, 1⟩⟩) :=
      fun r hr => ⟨_, List.mem_cons_self, Option.some.inj hr⟩
    have hchain : Chain nestedFrames (some ⟨⟨2, 1⟩⟩) nestedFrames :=
      .cons List.mem_cons_self (.cons (List.mem_cons_of_mem _ List.mem_cons_self) .nil)
    have hmeans (var : SymbolId) (b : Binding) (hb : Resolves nestedCode var nestedFrames b) :
        Binding.find l.arena nestedCode (some ⟨⟨2, 1⟩⟩) var = b :=
      ((((hfind l nestedFrames hl nestedCode var).1 _ henv).2 _ hchain).2 b).mpr hb
    refine ⟨l, hl, henv, hmeans 7 _ ?_, hmeans 9 _ ?_, hmeans 5 _ ?_, ?_⟩
    · refine .slot [⟨⟨⟨2, 1⟩⟩, 1, 2, some ⟨⟨0, 1⟩⟩⟩] ?_ rfl rfl (by decide)
      intro g hg
      cases List.mem_singleton.mp hg
      exact ⟨[8, 9], rfl, by decide⟩
    · exact .slot [] nofun rfl rfl (by decide)
    · refine .free fun g hg => ?_
      rcases List.mem_pair.mp hg with rfl | rfl
      · exact ⟨[8, 9], rfl, by decide⟩
      · exact ⟨[7], rfl, by decide⟩
    · exact (hfind l nestedFrames hl nestedCode 7).2 _ (by rw [hg]; decide)
  · obtain ⟨c, names, hc, hnames, -, hparameter, houter⟩ :=
      happly nestedMachine _ nestedCode ⟨⟨3, 1⟩⟩ nestedMachine_reachable rfl rfl rfl
    cases hc
    cases hnames
    have hnodup : [8, 9].Nodup := by decide
    exact ⟨_, nestedMachine_reachable, rfl, hnodup, hparameter hnodup 0 8 _ rfl rfl,
      hparameter hnodup 1 9 _ rfl rfl, (houter 7 (by decide)).2⟩

end ClosureMachine
