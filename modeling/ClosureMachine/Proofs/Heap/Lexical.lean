import ClosureMachine.Proofs.Heap.Records

/-!
Lexical scope in the arena. `Scopes` are the ledgers that come about when environment frames are
bound one inside the other, among any other allocations and writes that leave their heads alone.
The frames from an environment outward are a `Chain`, and `Resolves` says what a name means there:
the first place in the parameter list of the innermost frame that has it, nothing if all lists are
known and none has it, and nothing that can be known if an unknown list comes first.

Parents lie before their children (`Formed.parent_lt`), so that every chain ends and the search,
which carries a bound on its steps, never comes to that bound: it finds exactly what the name means
(`Formed.find_eq_iff`).
-/

namespace ClosureMachine

/-- An environment frame as it was bound. -/
structure BoundFrame where
  ref : EnvRef
  names : FormalsId
  /-- The number of its values. -/
  size : Nat
  parent : Option EnvRef

namespace BoundFrame

/-- What a ledger lists for the head of the frame. -/
def head (f : BoundFrame) : Entry Cell :=
  .head .environment f.ref ⟨f.names, .ofRef? f.parent, f.size⟩

def values (f : BoundFrame) : Slice Value := f.ref.slots f.size

/-- The parameter list is known and does not have the name. -/
def Lacks (f : BoundFrame) (code : Code) (var : SymbolId) : Prop :=
  ∃ names, code.formals? f.names = some names ∧ var ∉ names

end BoundFrame

/-- The environment is empty or one of the frames. -/
def Within (fs : List BoundFrame) (env : Option EnvRef) : Prop := ∀ r ∈ env, ∃ f ∈ fs, f.ref = r

/-- Ledgers with the environment frames bound so far, the latest first. -/
inductive Scopes : Ledger Cell → List BoundFrame → Prop
  | start {l : Ledger Cell} : l.Reachable → Scopes l []
  | bind {l : Ledger Cell} {fs : List BoundFrame} {names : FormalsId} {values : List Value}
    {parent : Option EnvRef} {env : EnvRef} {heap : Heap} :
    Scopes l fs → Within fs parent →
      EnvFrame.bind l.arena names values parent = (.ok env, heap) →
        Scopes (l.withRecord (k := .environment) heap env
          ⟨names, .ofRef? parent, values.length⟩ values) (⟨env, names, values.length, parent⟩ :: fs)
  /-- Any other operation that does not write to the head of a frame. -/
  | other {l l' : Ledger Cell} {fs : List BoundFrame} :
    Scopes l fs → l.Move l' → (∀ f ∈ fs, l'.Unassigned f.head) → Scopes l' fs

/-- The frames from an environment outward. -/
inductive Chain (fs : List BoundFrame) : Option EnvRef → List BoundFrame → Prop
  | nil : Chain fs none []
  | cons {f : BoundFrame} {chain : List BoundFrame} :
    f ∈ fs → Chain fs f.parent chain → Chain fs (some f.ref) (f :: chain)

/-- What a name means in a chain of frames. -/
inductive Resolves (code : Code) (var : SymbolId) : List BoundFrame → Binding → Prop
  | slot (inner : List BoundFrame) {outer : List BoundFrame} {f : BoundFrame}
    {names : List SymbolId} {i : Nat} :
    (∀ g ∈ inner, g.Lacks code var) → code.formals? f.names = some names →
      names[i]? = some var → (∀ j < i, names[j]? ≠ some var) →
        Resolves code var (inner ++ f :: outer) (.slot f.values i)
  | free {chain : List BoundFrame} :
    (∀ g ∈ chain, g.Lacks code var) → Resolves code var chain .free
  | broken (inner : List BoundFrame) {outer : List BoundFrame} {f : BoundFrame} :
    (∀ g ∈ inner, g.Lacks code var) → code.formals? f.names = none →
      Resolves code var (inner ++ f :: outer) .broken

/-- A name is found at the first place that has it. -/
theorem idxOf?_eq_some_iff_first {names : List SymbolId} {var : SymbolId} {i : Nat} :
    names.idxOf? var = some i ↔ names[i]? = some var ∧ ∀ j < i, names[j]? ≠ some var := by
  rw [List.idxOf?_eq_some_iff]
  constructor
  · rintro ⟨hlt, hget, hfirst⟩
    refine ⟨List.getElem?_eq_some_iff.mpr ⟨hlt, hget⟩, fun j hj hvar => hfirst j hj ?_⟩
    exact (List.getElem?_eq_some_iff.mp hvar).2
  · rintro ⟨hi, hfirst⟩
    obtain ⟨hlt, hget⟩ := List.getElem?_eq_some_iff.mp hi
    refine ⟨hlt, hget, fun j hj hvar => hfirst j hj ?_⟩
    exact List.getElem?_eq_some_iff.mpr ⟨_, hvar⟩

/-! ## Frames are found as they were bound -/

/-- What binding and the operations in between keep. -/
structure Formed (l : Ledger Cell) (fs : List BoundFrame) : Prop where
  reachable : l.Reachable
  listed : ∀ f ∈ fs, f.head ∈ l.entries
  stop_le : ∀ f ∈ fs, f.ref.addr.offset + 1 + f.size ≤ wordLimit - 1
  parent : ∀ f ∈ fs, Within fs f.parent
  parent_lt : ∀ f ∈ fs, ∀ r ∈ f.parent, r.addr.offset < f.ref.addr.offset

namespace Formed

variable {l : Ledger Cell} {fs : List BoundFrame} {f : BoundFrame} {code : Code} {var : SymbolId}

theorem generation_eq (h : Formed l fs) (hf : f ∈ fs) :
    f.ref.addr.generation = l.arena.generation :=
  (h.reachable.sound.placed _ (h.listed f hf)).generation

theorem lt_used (h : Formed l fs) (hf : f ∈ fs) : f.ref.addr.offset < l.arena.used :=
  (h.reachable.sound.placed _ (h.listed f hf)).stop_le

theorem load?_eq (h : Formed l fs) (hf : f ∈ fs) :
    EnvFrame.load? l.arena f.ref = some ⟨f.names, f.values, f.parent⟩ := by
  have hget : l.arena.get? f.ref = some ⟨f.names, .ofRef? f.parent, f.size⟩ :=
    (h.reachable.sound.placed _ (h.listed f hf)).reads.1
  refine EnvFrame.load?_of_get? hget (h.stop_le f hf) ?_
  cases hp : f.parent with
  | none => rfl
  | some r =>
    obtain ⟨g, hg, rfl⟩ := h.parent f hf r hp
    have hstop := h.stop_le g hg
    rw [h.generation_eq hf, ← h.generation_eq hg]
    exact Link.resolve_ofRef? (by omega)

/-! ## Chains end -/

theorem exists_chain (h : Formed l fs) {env : Option EnvRef} (henv : Within fs env) :
    ∃ chain, Chain fs env chain := by
  have hbelow : ∀ n f, f ∈ fs → f.ref.addr.offset < n → ∃ chain, Chain fs (some f.ref) chain := by
    intro n
    induction n with
    | zero => exact fun f _ hlt => absurd hlt (Nat.not_lt_zero _)
    | succ n ih =>
      intro f hf hlt
      cases hp : f.parent with
      | none => exact ⟨[f], .cons hf (hp ▸ .nil)⟩
      | some r =>
        obtain ⟨g, hg, rfl⟩ := h.parent f hf r hp
        have hless := h.parent_lt f hf g.ref hp
        obtain ⟨chain, hc⟩ := ih g hg (by omega)
        exact ⟨f :: chain, .cons hf (hp ▸ hc)⟩
  cases env with
  | none => exact ⟨[], .nil⟩
  | some r =>
    obtain ⟨f, hf, rfl⟩ := henv r rfl
    exact hbelow _ f hf (Nat.lt_succ_self _)

/-- A chain is no longer than the offset of its first frame allows. -/
theorem length_le (h : Formed l fs) {env : Option EnvRef} {chain : List BoundFrame}
    (hc : Chain fs env chain) {n : Nat} (hn : ∀ r ∈ env, r.addr.offset < n) : chain.length ≤ n := by
  induction hc generalizing n with
  | nil => exact Nat.zero_le _
  | @cons f chain hf _ ih =>
    have hlt := hn f.ref rfl
    have htail : chain.length ≤ f.ref.addr.offset := ih fun r hr => h.parent_lt f hf r hr
    rw [List.length_cons]
    omega

theorem length_le_used (h : Formed l fs) {env : Option EnvRef} {chain : List BoundFrame}
    (hc : Chain fs env chain) : chain.length ≤ l.arena.used := by
  refine h.length_le hc fun r hr => ?_
  cases hc with
  | nil => cases hr
  | cons hf _ =>
    cases hr
    exact h.lt_used hf

/-! ## The search -/

/-- Frames that do not have the name are passed. -/
theorem search_passed (h : Formed l fs) {inner rest : List BoundFrame} {env : Option EnvRef}
    (hc : Chain fs env (inner ++ rest)) (hl : ∀ g ∈ inner, g.Lacks code var) (fuel : Nat) :
    ∃ env', Chain fs env' rest ∧
      Binding.search l.arena code var (inner.length + fuel) env =
        Binding.search l.arena code var fuel env' := by
  induction inner generalizing env with
  | nil => exact ⟨env, hc, by rw [List.length_nil, Nat.zero_add]⟩
  | cons f inner ih =>
    cases hc with
    | cons hf hc =>
      obtain ⟨names, hnames, hvar⟩ := hl f List.mem_cons_self
      obtain ⟨env', hc', hs⟩ := ih hc fun g hg => hl g (List.mem_cons_of_mem f hg)
      refine ⟨env', hc', ?_⟩
      rw [List.length_cons, Nat.succ_add, Binding.search]
      simp only [h.load?_eq hf, hnames, List.idxOf?_eq_none_iff.mpr hvar]
      exact hs

/-- The search finds what the name means, if it may take as many steps as there are frames. -/
theorem search_eq (h : Formed l fs) {env : Option EnvRef} {chain : List BoundFrame}
    (hc : Chain fs env chain) {b : Binding} (hb : Resolves code var chain b) {fuel : Nat}
    (hfuel : chain.length ≤ fuel) : Binding.search l.arena code var fuel env = b := by
  cases hb with
  | @slot inner _ f names i hl hnames hi hfirst =>
    rw [List.length_append, List.length_cons] at hfuel
    obtain ⟨n, rfl⟩ : ∃ n, fuel = inner.length + (n + 1) := ⟨fuel - inner.length - 1, by omega⟩
    obtain ⟨env', hc', hs⟩ := h.search_passed hc hl (n + 1)
    have hindex : names.idxOf? var = some i := idxOf?_eq_some_iff_first.mpr ⟨hi, hfirst⟩
    cases hc' with
    | cons hf _ =>
      rw [hs, Binding.search]
      simp only [h.load?_eq hf, hnames, hindex]
  | free hl =>
    obtain ⟨n, rfl⟩ := Nat.exists_eq_add_of_le hfuel
    rw [← List.append_nil chain] at hc
    obtain ⟨env', hc', hs⟩ := h.search_passed hc hl n
    cases hc'
    rw [hs, Binding.search]
  | broken inner hl hnames =>
    rw [List.length_append, List.length_cons] at hfuel
    obtain ⟨n, rfl⟩ : ∃ n, fuel = inner.length + (n + 1) := ⟨fuel - inner.length - 1, by omega⟩
    obtain ⟨env', hc', hs⟩ := h.search_passed hc hl (n + 1)
    cases hc' with
    | cons hf _ =>
      rw [hs, Binding.search]
      simp only [h.load?_eq hf, hnames]

end Formed

/-- A frame that does not have the name changes nothing of its meaning. -/
theorem Resolves.cons {code : Code} {var : SymbolId} {f : BoundFrame} {chain : List BoundFrame}
    {b : Binding} (hf : f.Lacks code var) (h : Resolves code var chain b) :
    Resolves code var (f :: chain) b := by
  have hall {inner : List BoundFrame} (hl : ∀ g ∈ inner, g.Lacks code var) :
      ∀ g ∈ f :: inner, g.Lacks code var := by
    intro g hg
    rcases List.mem_cons.mp hg with rfl | hg
    · exact hf
    · exact hl g hg
  cases h with
  | slot inner hl hnames hi hfirst => exact .slot (f :: inner) (hall hl) hnames hi hfirst
  | free hl => exact .free (hall hl)
  | broken inner hl hnames => exact .broken (f :: inner) (hall hl) hnames

/-- A name means something in every chain. -/
theorem exists_resolves (code : Code) (var : SymbolId) (chain : List BoundFrame) :
    ∃ b, Resolves code var chain b := by
  induction chain with
  | nil => exact ⟨.free, .free nofun⟩
  | cons f chain ih =>
    cases hnames : code.formals? f.names with
    | none => exact ⟨.broken, .broken [] nofun hnames⟩
    | some names =>
      cases hi : names.idxOf? var with
      | none =>
        obtain ⟨b, hb⟩ := ih
        exact ⟨b, hb.cons ⟨names, hnames, List.idxOf?_eq_none_iff.mp hi⟩⟩
      | some i =>
        obtain ⟨hget, hfirst⟩ := idxOf?_eq_some_iff_first.mp hi
        exact ⟨.slot f.values i, .slot [] nofun hnames hget hfirst⟩

namespace Formed

variable {l : Ledger Cell} {fs : List BoundFrame} {code : Code} {var : SymbolId}
  {env : Option EnvRef} {chain : List BoundFrame}

theorem find_eq_iff (h : Formed l fs) (hc : Chain fs env chain) (b : Binding) :
    Binding.find l.arena code env var = b ↔ Resolves code var chain b := by
  obtain ⟨b', hb'⟩ := exists_resolves code var chain
  have hfuel := Nat.le_succ_of_le (h.length_le_used hc)
  have hfind : Binding.find l.arena code env var = b' := h.search_eq hc hb' hfuel
  constructor
  · intro heq
    rwa [← heq, hfind]
  · exact fun hb => h.search_eq hc hb hfuel

/-- The bound on the steps of the search does not matter. -/
theorem search_eq_find (h : Formed l fs) (hc : Chain fs env chain) {fuel : Nat}
    (hfuel : chain.length ≤ fuel) :
    Binding.search l.arena code var fuel env = Binding.find l.arena code env var :=
  h.search_eq hc ((h.find_eq_iff hc _).mp rfl) hfuel

end Formed

/-- A reference of another generation leads nowhere. -/
theorem find_of_stale {heap : Heap} {r : EnvRef} (h : r.addr.generation ≠ heap.generation)
    (code : Code) (var : SymbolId) : Binding.find heap code (some r) var = .broken := by
  have hload : EnvFrame.load? heap r = none := by
    cases hget : heap.get? r with
    | none => rw [EnvFrame.load?, hget, Option.map_none]
    | some head => exact absurd ((Heap.get?_environment_iff heap r head).mp hget).1 h
  simp only [Binding.find, Binding.search, hload]

/-! ## Every ledger with its frames -/

theorem Formed.start {l : Ledger Cell} (h : l.Reachable) : Formed l [] :=
  ⟨h, nofun, nofun, nofun, nofun⟩

theorem Formed.bind {l : Ledger Cell} {fs : List BoundFrame} (h : Formed l fs) {names : FormalsId}
    {values : List Value} {parent : Option EnvRef} {env : EnvRef} {heap : Heap}
    (hp : Within fs parent) (hok : EnvFrame.bind l.arena names values parent = (.ok env, heap)) :
    Formed (l.withRecord (k := .environment) heap env ⟨names, .ofRef? parent, values.length⟩ values)
      (⟨env, names, values.length, parent⟩ :: fs) := by
  obtain ⟨haddr, hroom, hmove⟩ := h.reachable.bind_ok hok
  have hw := h.reachable.sound.capacity_lt
  have hwithin {r : Option EnvRef} (hr : Within fs r) :
      Within (⟨env, names, values.length, parent⟩ :: fs) r := by
    intro x hx
    obtain ⟨f, hf, rfl⟩ := hr x hx
    exact ⟨f, List.mem_cons_of_mem _ hf, rfl⟩
  refine ⟨h.reachable.move hmove, ?_, ?_, ?_, ?_⟩
  all_goals
    intro f hf
    rcases List.mem_cons.mp hf with rfl | hf
  · exact List.mem_cons_of_mem _ List.mem_cons_self
  · exact List.mem_cons_of_mem _ (List.mem_cons_of_mem _ (h.listed f hf))
  · rw [haddr]
    exact Nat.le_sub_one_of_lt (Nat.lt_of_le_of_lt hroom hw)
  · exact h.stop_le f hf
  · exact hwithin hp
  · exact hwithin (h.parent f hf)
  · intro r hr
    obtain ⟨g, hg, rfl⟩ := hp r hr
    rw [haddr]
    exact h.lt_used hg
  · exact h.parent_lt f hf

theorem Formed.other {l l' : Ledger Cell} {fs : List BoundFrame} (h : Formed l fs) (hm : l.Move l')
    (hu : ∀ f ∈ fs, l'.Unassigned f.head) : Formed l' fs where
  reachable := h.reachable.move hm
  listed f hf := h.reachable.listed (.single hm) (h.listed f hf) (hu f hf)
  stop_le := h.stop_le
  parent := h.parent
  parent_lt := h.parent_lt

theorem Scopes.formed {l : Ledger Cell} {fs : List BoundFrame} (h : Scopes l fs) : Formed l fs := by
  induction h with
  | start hl => exact .start hl
  | bind _ hp hok ih => exact ih.bind hp hok
  | other _ hm hu ih => exact ih.other hm hu

end ClosureMachine
