import Mathlib.Data.List.Nodup
import Mathlib.Data.List.Perm.Subperm
import ClosureMachine.Proofs.Heap.Cells

/-!
Walks along chains of records. What a walk comes to next depends on nothing but the record it is
at, so a walk that comes to a record twice goes round in a circle, and one that ends is no longer
than there are blocks in use. The number of steps that the machine allows a walk therefore decides
whether it ends: the frames of a stack are counted exactly if the walk along it ends
(`CallFrame.chain?_eq_some_iff`), and looking up a variable is endless exactly if no number of steps
suffices (`Binding.find_eq_endless_iff`).
-/

namespace ClosureMachine

/-- The records met on the way from a reference. The walk ends where `next` knows no further. -/
inductive Trail {α : Type} (next : Ref α → Option (Option (Ref α))) :
    Option (Ref α) → List (Ref α) → Prop
  | done : Trail next none []
  | stop {r : Ref α} : next r = none → Trail next (some r) []
  | step {r : Ref α} {s : Option (Ref α)} {rest : List (Ref α)} :
    next r = some s → Trail next s rest → Trail next (some r) (r :: rest)

namespace Trail

variable {α : Type} {next : Ref α → Option (Option (Ref α))} {s : Option (Ref α)}
  {rest rest' : List (Ref α)}

theorem unique (h : Trail next s rest) (h' : Trail next s rest') : rest = rest' := by
  induction h generalizing rest' with
  | done =>
    cases h'
    rfl
  | stop hn =>
    cases h' with
    | stop _ => rfl
    | step hn' _ => rw [hn] at hn'; cases hn'
  | step hn _ ih =>
    cases h' with
    | stop hn' => rw [hn] at hn'; cases hn'
    | step hn' ht =>
      rw [hn] at hn'
      cases hn'
      rw [ih ht]

/-- A walk goes on from each record that it meets. -/
theorem of_mem (h : Trail next s rest) {r : Ref α} (hr : r ∈ rest) :
    ∃ later, Trail next (some r) later ∧ later.length ≤ rest.length ∧ next r ≠ none := by
  induction h with
  | done => cases hr
  | stop _ => cases hr
  | @step r' _ rest hn ht ih =>
    rcases List.mem_cons.mp hr with rfl | hmem
    · exact ⟨_, .step hn ht, Nat.le_refl _, by rw [hn]; nofun⟩
    · obtain ⟨later, hlater, hle, hne⟩ := ih hmem
      exact ⟨later, hlater, Nat.le_succ_of_le hle, hne⟩

/-- A walk that ends meets no record twice. -/
theorem nodup (h : Trail next s rest) : rest.Nodup := by
  induction h with
  | done => exact .nil
  | stop _ => exact .nil
  | @step r _ rest hn ht ih =>
    refine List.nodup_cons.mpr ⟨fun hmem => ?_, ih⟩
    obtain ⟨later, hlater, hle, -⟩ := ht.of_mem hmem
    rw [hlater.unique (.step hn ht), List.length_cons] at hle
    exact Nat.not_succ_le_self _ hle

/-- A walk that ends is no longer than there are places to go on from. -/
theorem length_le (h : Trail next s rest) (generation used : Nat)
    (hlive : ∀ r, next r ≠ none → r.addr.generation = generation ∧ r.addr.offset < used) :
    rest.length ≤ used := by
  have hplace : ∀ r ∈ rest, r.addr.generation = generation ∧ r.addr.offset < used := by
    intro r hr
    obtain ⟨-, -, -, hne⟩ := h.of_mem hr
    exact hlive r hne
  have hnodup : (rest.map (·.addr.offset)).Nodup := by
    refine List.Nodup.map_on ?_ h.nodup
    rintro ⟨o, g⟩ hr ⟨o', g'⟩ hr' rfl
    have hg : g = g' := (hplace _ hr).1.trans (hplace _ hr').1.symm
    rw [hg]
  have hsub : rest.map (·.addr.offset) ⊆ List.range used := by
    intro o ho
    obtain ⟨r, hr, rfl⟩ := List.mem_map.mp ho
    exact List.mem_range.mpr (hplace r hr).2
  simpa using (List.subperm_of_subset hnodup hsub).length_le

end Trail

/-! ## Control stacks -/

/-- The frames met on the way from `top`: the walk stops at the end of the chain or at a frame that
cannot be read. -/
inductive Heap.Walk (heap : Heap) : Option FrameRef → List FrameRef → Prop
  | done : Walk heap none []
  | unread {r : FrameRef} : CallFrame.load? heap r = none → Walk heap (some r) []
  | frame {r : FrameRef} {f : CallFrame} {rest : List FrameRef} :
    CallFrame.load? heap r = some f → Walk heap f.link rest → Walk heap (some r) (r :: rest)

namespace CallFrame

variable {heap : Heap} {s : Option FrameRef} {rest : List FrameRef} {frames : Array CallFrame}

theorem live_of_load? {r : FrameRef} {f : CallFrame} (h : load? heap r = some f) :
    r.addr.generation = heap.generation ∧ r.addr.offset < heap.used := by
  obtain ⟨head, hget, -⟩ := Option.map_eq_some_iff.mp h
  obtain ⟨hg, hc⟩ := (Heap.get?_frame_iff heap r head).mp hget
  exact ⟨hg, Heap.cell?_lt hc⟩

theorem walk_trail (h : heap.Walk s rest) :
    Trail (fun r => (load? heap r).map link) s rest := by
  induction h with
  | done => exact .done
  | unread hn => exact .stop (by rw [hn]; rfl)
  | frame hf _ ih => exact .step (by rw [hf]; rfl) ih

theorem walk_length_le (h : heap.Walk s rest) : rest.length ≤ heap.used := by
  refine (walk_trail h).length_le heap.generation heap.used fun r hne => ?_
  obtain ⟨link, hlink⟩ := Option.ne_none_iff_exists'.mp hne
  obtain ⟨f, hf, -⟩ := Option.map_eq_some_iff.mp hlink
  exact live_of_load? hf

/-- With a step for each frame the walk comes to its end, and reads all of them. -/
theorem collect?_of_walk (h : heap.Walk s rest) {fuel : Nat} (hfuel : rest.length < fuel)
    (acc : Array CallFrame) :
    collect? heap fuel s acc = some (acc ++ (rest.filterMap (load? heap)).toArray) := by
  induction h generalizing fuel acc with
  | done => cases fuel <;> simp [collect?]
  | unread hn =>
    obtain ⟨fuel, rfl⟩ := Nat.exists_eq_succ_of_ne_zero (Nat.ne_zero_of_lt hfuel)
    simp [collect?, hn]
  | @frame r f rest hf _ ih =>
    obtain ⟨fuel, rfl⟩ := Nat.exists_eq_succ_of_ne_zero (Nat.ne_zero_of_lt hfuel)
    have hrest := ih (Nat.lt_of_succ_lt_succ hfuel) (acc.push f)
    simp only [collect?, hf, hrest]
    simp [hf]

theorem walk_of_collect? {fuel : Nat} {acc : Array CallFrame}
    (h : collect? heap fuel s acc = some frames) : ∃ rest, heap.Walk s rest := by
  induction fuel generalizing s acc with
  | zero =>
    cases s with
    | none => exact ⟨[], .done⟩
    | some r => cases h
  | succ fuel ih =>
    cases s with
    | none => exact ⟨[], .done⟩
    | some r =>
      cases hf : load? heap r with
      | none => exact ⟨[], .unread hf⟩
      | some f =>
        simp only [collect?, hf] at h
        obtain ⟨rest, hw⟩ := ih h
        exact ⟨r :: rest, .frame hf hw⟩

/-- The frames on a chain are those that the walk along it meets, and there is no other way to
come by them. -/
theorem chain?_eq_some_iff :
    chain? heap s = some frames ↔
      ∃ rest, heap.Walk s rest ∧ frames = (rest.filterMap (load? heap)).toArray := by
  have hof : ∀ rest, heap.Walk s rest →
      chain? heap s = some (rest.filterMap (load? heap)).toArray := by
    intro rest hw
    have h := collect?_of_walk hw (Nat.lt_succ_of_le (walk_length_le hw)) #[]
    rwa [Array.empty_append] at h
  constructor
  · intro h
    obtain ⟨rest, hw⟩ := walk_of_collect? h
    rw [hof rest hw] at h
    exact ⟨rest, hw, (Option.some.inj h).symm⟩
  · rintro ⟨rest, hw, rfl⟩
    exact hof rest hw

/-- Counting the frames of a stack does not return exactly if the walk along it does not end. -/
theorem chain?_eq_none_iff : chain? heap s = none ↔ ¬ ∃ rest, heap.Walk s rest := by
  constructor
  · rintro h ⟨rest, hw⟩
    rw [chain?_eq_some_iff.mpr ⟨rest, hw, rfl⟩] at h
    cases h
  · intro h
    cases hc : chain? heap s with
    | none => rfl
    | some frames =>
      obtain ⟨rest, hw, -⟩ := chain?_eq_some_iff.mp hc
      exact absurd ⟨rest, hw⟩ h

theorem load?_of_walk (h : heap.Walk s rest) :
    (rest.filterMap (load? heap)).length = rest.length := by
  induction h with
  | done => rfl
  | unread _ => rfl
  | frame hf _ ih => simp [hf, ih]

/-- A stack has as many frames as the walk along it meets. -/
theorem chain?_size_of_walk (h : heap.Walk s rest) :
    (chain? heap s).map Array.size = some rest.length := by
  rw [chain?_eq_some_iff.mpr ⟨rest, h, rfl⟩, Option.map_some, List.size_toArray, load?_of_walk h]

@[simp] theorem chain?_none (heap : Heap) : chain? heap none = some #[] :=
  chain?_eq_some_iff.mpr ⟨[], .done, rfl⟩

/-- Counting frames reads call frames only. -/
theorem chain?_congr {heap' : Heap} (hload : ∀ r : FrameRef, load? heap' r = load? heap r)
    (hused : heap'.used = heap.used) (top : Option FrameRef) :
    chain? heap' top = chain? heap top := by
  have hcollect : ∀ fuel top acc, collect? heap' fuel top acc = collect? heap fuel top acc := by
    intro fuel
    induction fuel with
    | zero =>
      intro top acc
      cases top <;> rfl
    | succ fuel ih =>
      intro top acc
      cases top with
      | none => rfl
      | some r => simp only [collect?, hload, ih]
  rw [chain?, chain?, hused, hcollect]

theorem chain?_of_unread {r : FrameRef} (h : load? heap r = none) :
    chain? heap (some r) = some #[] :=
  chain?_eq_some_iff.mpr ⟨[], .unread h, rfl⟩

end CallFrame

/-! ## Environments -/

namespace Binding

variable {heap : Heap} {code : Code} {var : SymbolId} {env : Option EnvRef}

/-- Where the walk to a binding of `var` goes on from a frame that does not hold one. -/
def beyond (heap : Heap) (code : Code) (var : SymbolId) (r : EnvRef) : Option (Option EnvRef) :=
  (EnvFrame.load? heap r).bind fun frame =>
    (code.formals? frame.names).bind fun names =>
      if names.idxOf? var = none then some frame.parent else none

theorem live_of_beyond {r : EnvRef} (h : beyond heap code var r ≠ none) :
    r.addr.generation = heap.generation ∧ r.addr.offset < heap.used := by
  obtain ⟨parent, hparent⟩ := Option.ne_none_iff_exists'.mp h
  obtain ⟨frame, hload, -⟩ := Option.bind_eq_some_iff.mp hparent
  obtain ⟨head, hget, -⟩ := Option.map_eq_some_iff.mp hload
  obtain ⟨hg, hc⟩ := (Heap.get?_environment_iff heap r head).mp hget
  exact ⟨hg, Heap.cell?_lt hc⟩

theorem search_of_trail {rest : List EnvRef} (h : Trail (beyond heap code var) env rest)
    {fuel : Nat} (hfuel : rest.length < fuel) : search heap code var fuel env ≠ .endless := by
  induction h generalizing fuel with
  | done => cases fuel <;> simp [search]
  | @stop r hn =>
    obtain ⟨fuel, rfl⟩ := Nat.exists_eq_succ_of_ne_zero (Nat.ne_zero_of_lt hfuel)
    cases hload : EnvFrame.load? heap r with
    | none => simp [search, hload]
    | some frame =>
      cases hnames : code.formals? frame.names with
      | none => simp [search, hload, hnames]
      | some names =>
        cases hi : names.idxOf? var with
        | none =>
          rw [beyond, hload, Option.bind_some, hnames, Option.bind_some, if_pos hi] at hn
          cases hn
        | some index => simp [search, hload, hnames, hi]
  | step hn _ ih =>
    obtain ⟨fuel, rfl⟩ := Nat.exists_eq_succ_of_ne_zero (Nat.ne_zero_of_lt hfuel)
    obtain ⟨frame, hload, hn⟩ := Option.bind_eq_some_iff.mp hn
    obtain ⟨names, hnames, hn⟩ := Option.bind_eq_some_iff.mp hn
    by_cases hi : names.idxOf? var = none
    · rw [if_pos hi] at hn
      cases hn
      simp only [search, hload, hnames, hi]
      exact ih (Nat.lt_of_succ_lt_succ hfuel)
    · rw [if_neg hi] at hn
      cases hn

theorem trail_of_search {fuel : Nat} (h : search heap code var fuel env ≠ .endless) :
    ∃ rest, Trail (beyond heap code var) env rest := by
  induction fuel generalizing env with
  | zero =>
    cases env with
    | none => exact ⟨[], .done⟩
    | some r => exact absurd rfl h
  | succ fuel ih =>
    cases env with
    | none => exact ⟨[], .done⟩
    | some r =>
      cases hb : beyond heap code var r with
      | none => exact ⟨[], .stop hb⟩
      | some parent =>
        obtain ⟨frame, hload, hn⟩ := Option.bind_eq_some_iff.mp hb
        obtain ⟨names, hnames, hn⟩ := Option.bind_eq_some_iff.mp hn
        by_cases hi : names.idxOf? var = none
        · rw [if_pos hi] at hn
          cases hn
          simp only [search, hload, hnames, hi] at h
          obtain ⟨rest, ht⟩ := ih h
          exact ⟨r :: rest, .step hb ht⟩
        · rw [if_neg hi] at hn
          cases hn

/-- Looking up a variable does not return exactly if no number of steps leads to an end. -/
theorem find_eq_endless_iff :
    find heap code env var = .endless ↔ ∀ fuel, search heap code var fuel env = .endless := by
  refine ⟨fun h fuel => ?_, fun h => h _⟩
  by_contra hne
  obtain ⟨rest, ht⟩ := trail_of_search hne
  have hle := ht.length_le heap.generation heap.used fun _ => live_of_beyond
  exact search_of_trail ht (Nat.lt_succ_of_le hle) h

/-- The search for a variable reads environment frames only. -/
theorem find_congr {heap heap' : Heap}
    (hload : ∀ r : EnvRef, EnvFrame.load? heap' r = EnvFrame.load? heap r)
    (hused : heap'.used = heap.used) (code : Code) (env : Option EnvRef) (var : SymbolId) :
    find heap' code env var = find heap code env var := by
  have hsearch : ∀ fuel env, search heap' code var fuel env = search heap code var fuel env := by
    intro fuel
    induction fuel with
    | zero =>
      intro env
      cases env <;> rfl
    | succ fuel ih =>
      intro env
      cases env with
      | none => rfl
      | some r => simp only [search, hload, ih]
  rw [find, find, hused, hsearch]

end Binding

end ClosureMachine
