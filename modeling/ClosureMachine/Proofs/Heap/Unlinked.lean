import ClosureMachine.Proofs.Heap.Linked
import ClosureMachine.Proofs.Heap.Scope

/-!
Heaps without their control stacks. Forgetting the links between call frames and the stacks of
continuations (`Heap.unlinked`) changes nothing that environments, closures and saved arguments are
read from, and it goes together with storing records and assigning values.

Where the heap without its control stacks is linked, each header is followed by values of its own
(`Run`), and so an assignment to a slot of an environment frame shows in that slot and nowhere else
(`slotSet_setValue`).
-/

namespace ClosureMachine

/-- The cell without what it says about a control stack. -/
def Cell.unlinked : Cell → Cell
  | .frame h => .frame { h with link := .none }
  | .continuation _ => .continuation ⟨none, 0⟩
  | c => c

namespace Heap

/-- The heap with all control stacks forgotten. -/
def unlinked (heap : Heap) : Heap := { heap with region := heap.region.map Cell.unlinked }

section

variable (heap : Heap)

@[simp] theorem unlinked_used : heap.unlinked.used = heap.used := Array.size_map

@[simp] theorem unlinked_generation : heap.unlinked.generation = heap.generation := rfl

@[simp] theorem unlinked_remaining : heap.unlinked.remaining = heap.remaining := by
  rw [Arena.remaining, Arena.remaining, unlinked_used]
  rfl

theorem cell?_unlinked (o : Nat) : heap.unlinked.cell? o = (heap.cell? o).map Cell.unlinked :=
  Array.getElem?_map

theorem unlinked_extend (cells : List Cell) :
    (heap.extend cells).unlinked = heap.unlinked.extend (cells.map Cell.unlinked) := by
  simp only [unlinked, extend, Array.map_append, List.map_toArray, List.length_map]
  rw [show heap.used = Arena.used { heap with region := heap.region.map Cell.unlinked } from
    (unlinked_used heap).symm]

theorem unlinked_setValue (o : Nat) (v : Value) :
    (heap.setValue o v).unlinked = heap.unlinked.setValue o v := by
  simp only [unlinked, setValue, Array.map_setIfInBounds, Cell.unlinked]

theorem get?_unlinked {α : Type} {inject : α → Cell} {project : Cell → Option α}
    (hp : ∀ c : Cell, project c.unlinked = project c) (r : Ref α) :
    @Arena.get? Cell α (Cell.storable inject project) heap.unlinked r =
      @Arena.get? Cell α (Cell.storable inject project) heap r := by
  rw [get?_storable, get?_storable, cell?_unlinked, unlinked_generation]
  cases heap.cell? r.addr.offset with
  | none => rfl
  | some c => simp only [Option.map_some, Option.bind_some, hp]

theorem get?_closure_unlinked (r : Ref Closure) : heap.unlinked.get? r = heap.get? r :=
  heap.get?_unlinked (fun c => by cases c <;> rfl) r

theorem load_env_unlinked (r : EnvRef) :
    EnvFrame.load? heap.unlinked r = EnvFrame.load? heap r := by
  have hget : heap.unlinked.get? r = heap.get? r :=
    heap.get?_unlinked (fun c => by cases c <;> rfl) r
  rw [EnvFrame.load?, EnvFrame.load?, hget]

theorem find_unlinked (code : Code) (env : Option EnvRef) (var : SymbolId) :
    Binding.find heap.unlinked code env var = Binding.find heap code env var :=
  Binding.find_congr heap.load_env_unlinked heap.unlinked_used code env var

theorem setAt_unlinked (s : Slice Value) (i : Nat) (v : Value) :
    heap.unlinked.setAt s i v = ((heap.setAt s i v).1, unlinked (heap.setAt s i v).2) := by
  have hlive : heap.unlinked.isLiveSlice s = heap.isLiveSlice s := by
    simp only [Arena.isLiveSlice, Arena.isLive, unlinked_used, unlinked_generation]
  have hwrite : (⟨heap.capacity, Storable.write (heap.region.map Cell.unlinked) s.offset i v,
      heap.highWater, heap.generation⟩ : Heap) = (heap.setValue (s.offset + i) v).unlinked :=
    (unlinked_setValue heap (s.offset + i) v).symm
  simp only [Arena.setAt, hlive]
  split
  · rfl
  · split
    · split
      · exact congrArg (Prod.mk _) hwrite
      · rfl
    · rfl

end

/-! ## Runs of values -/

variable {heap : Heap} {o : Nat} {s : Slice Value}

/-- The values behind the header at `o`. -/
inductive Run (heap : Heap) (o : Nat) (s : Slice Value) : Prop
  | intro (c : Cell) : heap.unlinked.cell? o = some c → c.isRecord = true →
    s = ⟨o + 1, c.tailLength, heap.generation⟩ → Run heap o s

/-- Values are the same with and without control stacks. -/
theorem holdsValues_unlinked {base : Nat} {vs : List Value}
    (h : heap.unlinked.HoldsValues base vs) : heap.HoldsValues base vs := by
  intro i v hi
  have hc := h i v hi
  rw [cell?_unlinked] at hc
  cases hcell : heap.cell? (base + i) with
  | none =>
    rw [hcell] at hc
    cases hc
  | some c =>
    rw [hcell] at hc
    cases c <;> cases hc
    rfl

theorem Run.slice (h : heap.Run o s) (hl : heap.unlinked.Linked 0) :
    ∃ vs, vs.length = s.length ∧ heap.HoldsValues s.offset vs ∧ heap.slice? s = some vs := by
  obtain ⟨c, hc, -, rfl⟩ := h
  obtain ⟨vs, hlen, hvs⟩ := hl.exists_values (Nat.zero_le _) hc
  have hholds := holdsValues_unlinked hvs
  exact ⟨vs, hlen, hholds, (slice?_eq_some_iff rfl vs).mpr ⟨hlen, hholds⟩⟩

theorem run_of_load_env (hl : heap.unlinked.Linked 0) {r : EnvRef} {f : EnvFrame}
    (h : EnvFrame.load? heap r = some f) : heap.Run r.addr.offset f.values := by
  rw [← load_env_unlinked] at h
  obtain ⟨head, hget, -⟩ := Option.map_eq_some_iff.mp h
  obtain ⟨hg, hc⟩ := (get?_environment_iff _ _ _).mp hget
  rw [hl.load_env (Nat.zero_le _) hg hc] at h
  cases h
  exact ⟨_, hc, rfl, rfl⟩

theorem run_of_load_frame (hl : heap.unlinked.Linked 0) {top : FrameRef} {f : CallFrame}
    (h : CallFrame.load? heap top = some f) : heap.Run top.addr.offset f.rib := by
  obtain ⟨head, hget, rfl⟩ := Option.map_eq_some_iff.mp h
  obtain ⟨hg, hc⟩ := (get?_frame_iff _ _ _).mp hget
  have hc' : heap.unlinked.cell? top.addr.offset = some (.frame { head with link := .none }) := by
    rw [cell?_unlinked, hc]
    rfl
  have hget' := (get?_frame_iff heap.unlinked top _).mpr ⟨hg, hc'⟩
  have hload := hl.load_frame (Nat.zero_le _) hg hc'
  rw [CallFrame.load?, hget'] at hload
  have hrib := congrArg (Option.map CallFrame.rib) hload
  exact ⟨_, hc', rfl, Option.some.inj hrib⟩

/-! ## Assigning to a slot -/

/-- Slot `i` of the environment frame `r` has been given the value `v`, and that is all: other cells
are as they were, and so is whatever is read from the heap, save that slot. -/
structure SlotSet (heap : Heap) (r : EnvRef) (i : Nat) (v : Value) (heap' : Heap) : Prop where
  used : heap'.used = heap.used
  generation : heap'.generation = heap.generation
  written : heap'.cell? (r.addr.offset + 1 + i) = some (.value v)
  cells : ∀ o, o ≠ r.addr.offset + 1 + i → heap'.cell? o = heap.cell? o
  environments : ∀ env : EnvRef, EnvFrame.load? heap' env = EnvFrame.load? heap env
  slots : ∀ env f, EnvFrame.load? heap env = some f →
    ∃ vs, vs.length = f.values.length ∧ heap.slice? f.values = some vs ∧
      heap'.slice? f.values = some (if env = r then vs.set i v else vs)
  frames : ∀ top : FrameRef, CallFrame.load? heap' top = CallFrame.load? heap top
  ribs : ∀ top f, CallFrame.load? heap top = some f → heap'.slice? f.rib = heap.slice? f.rib
  closures : ∀ c : Ref Closure, heap'.get? c = heap.get? c
  continuations : ∀ k : Ref Continuation, heap'.get? k = heap.get? k

/-- Records are not read from cells that hold values. -/
theorem get?_setValue {α : Type} {inject : α → Cell} {project : Cell → Option α}
    (hp : ∀ v, project (.value v) = none) {w : Value} (hw : heap.cell? o = some (.value w))
    (v : Value) (r : Ref α) :
    @Arena.get? Cell α (Cell.storable inject project) (heap.setValue o v) r =
      @Arena.get? Cell α (Cell.storable inject project) heap r := by
  rw [get?_storable, get?_storable, setValue_generation]
  by_cases heq : o = r.addr.offset
  · subst heq
    rw [cell?_setValue_same _ _ _ (cell?_lt hw), hw]
    simp only [Option.bind_some, hp]
  · rw [cell?_setValue_ne _ _ _ heq]

theorem HoldsValues.setValue_other {base : Nat} {vs : List Value} (h : heap.HoldsValues base vs)
    (ho : ∀ i < vs.length, o ≠ base + i) (v : Value) :
    (heap.setValue o v).HoldsValues base vs := by
  intro i w hi
  have hlt := (List.getElem?_eq_some_iff.mp hi).1
  rw [cell?_setValue_ne _ _ _ (ho i hlt), h i w hi]

theorem HoldsValues.setValue_same {base i : Nat} {vs : List Value} (h : heap.HoldsValues base vs)
    (hi : i < vs.length) (v : Value) : (heap.setValue (base + i) v).HoldsValues base (vs.set i v) := by
  intro j w hj
  by_cases heq : i = j
  · subst heq
    rw [List.getElem?_set_self hi] at hj
    cases hj
    exact cell?_setValue_same _ _ _ (cell?_lt (h i _ (List.getElem?_eq_getElem hi)))
  · rw [List.getElem?_set_ne heq] at hj
    rw [cell?_setValue_ne _ _ _ (by omega), h j w hj]

/-- One offset holds one environment frame. -/
theorem eq_of_load_env {r r' : EnvRef} {f f' : EnvFrame} (h : EnvFrame.load? heap r = some f)
    (h' : EnvFrame.load? heap r' = some f') (ho : r.addr.offset = r'.addr.offset) : r = r' := by
  obtain ⟨head, hget, -⟩ := Option.map_eq_some_iff.mp h
  obtain ⟨head', hget', -⟩ := Option.map_eq_some_iff.mp h'
  obtain ⟨hg, -⟩ := (get?_environment_iff _ _ _).mp hget
  obtain ⟨hg', -⟩ := (get?_environment_iff _ _ _).mp hget'
  obtain ⟨⟨o, g⟩⟩ := r
  obtain ⟨⟨o', g'⟩⟩ := r'
  cases ho
  cases hg.trans hg'.symm
  rfl

theorem offset_ne_of_load {r : EnvRef} {top : FrameRef} {f : EnvFrame} {g : CallFrame}
    (h : EnvFrame.load? heap r = some f) (h' : CallFrame.load? heap top = some g) :
    r.addr.offset ≠ top.addr.offset := by
  obtain ⟨head, hget, -⟩ := Option.map_eq_some_iff.mp h
  obtain ⟨head', hget', -⟩ := Option.map_eq_some_iff.mp h'
  obtain ⟨-, hc⟩ := (get?_environment_iff _ _ _).mp hget
  obtain ⟨-, hc'⟩ := (get?_frame_iff _ _ _).mp hget'
  intro ho
  rw [ho, hc'] at hc
  cases hc

/-- A run other than the one that is written to keeps its values. -/
theorem Run.slice_other (h : heap.Run o s) (hl : heap.unlinked.Linked 0) {o' i : Nat}
    {s' : Slice Value} (h' : heap.Run o' s') (hne : o' ≠ o) (hi : i < s'.length) (v : Value) :
    (heap.setValue (o' + 1 + i) v).slice? s = heap.slice? s := by
  obtain ⟨vs, hlen, hvs, hslice⟩ := h.slice hl
  obtain ⟨c, hc, hr, rfl⟩ := h
  obtain ⟨c', hc', hr', rfl⟩ := h'
  have hapart : ∀ j < vs.length, o' + 1 + i ≠ o + 1 + j := fun j hj =>
    hl.tails_disjoint (Nat.zero_le _) (Nat.zero_le _) hc' hc hr' hr hne hi
      (Nat.lt_of_lt_of_eq hj hlen)
  rw [hslice]
  exact (slice?_eq_some_iff rfl vs).mpr ⟨hlen, hvs.setValue_other hapart v⟩

/-- An assignment to a slot that an environment frame has. -/
theorem slotSet_setValue (hl : heap.unlinked.Linked 0) {r : EnvRef} {f : EnvFrame}
    (hf : EnvFrame.load? heap r = some f) {i : Nat} (hi : i < f.values.length) (v : Value) :
    heap.SlotSet r i v (heap.setValue (r.addr.offset + 1 + i) v) := by
  have hrun := run_of_load_env hl hf
  obtain ⟨vs, hlen, hvs, hslice⟩ := hrun.slice hl
  have hoffset : f.values.offset = r.addr.offset + 1 := by
    obtain ⟨c, -, -, hs⟩ := hrun
    rw [hs]
  have hold := hvs i _ (List.getElem?_eq_getElem (hlen ▸ hi))
  rw [hoffset] at hvs hold
  constructor
  case used => exact setValue_used _ _ _
  case generation => rfl
  case written => exact cell?_setValue_same _ _ _ (cell?_lt hold)
  case cells => exact fun o ho => cell?_setValue_ne _ _ _ (Ne.symm ho)
  case environments =>
    intro env
    have hget : (heap.setValue (r.addr.offset + 1 + i) v).get? env = heap.get? env :=
      get?_setValue (fun _ => rfl) hold v env
    rw [EnvFrame.load?, EnvFrame.load?, hget]
  case slots =>
    intro env g hg
    by_cases heq : env = r
    · subst heq
      cases hf.symm.trans hg
      have hgen : f.values.generation =
          (heap.setValue (env.addr.offset + 1 + i) v).generation := by
        obtain ⟨c, -, -, hs⟩ := hrun
        rw [hs]
        rfl
      refine ⟨vs, hlen, hslice, ?_⟩
      rw [if_pos rfl]
      refine (slice?_eq_some_iff hgen _).mpr ⟨List.length_set.trans hlen, ?_⟩
      rw [hoffset]
      exact hvs.setValue_same (hlen ▸ hi) v
    · have hrun' := run_of_load_env hl hg
      obtain ⟨ws, hlen', -, hslice'⟩ := hrun'.slice hl
      refine ⟨ws, hlen', hslice', ?_⟩
      rw [if_neg heq, ← hslice']
      refine hrun'.slice_other hl hrun (fun ho => heq ?_) hi v
      exact eq_of_load_env hg hf ho.symm
  case frames =>
    intro top
    have hget : (heap.setValue (r.addr.offset + 1 + i) v).get? top = heap.get? top :=
      get?_setValue (fun _ => rfl) hold v top
    rw [CallFrame.load?, CallFrame.load?, hget]
  case ribs =>
    intro top g hg
    exact (run_of_load_frame hl hg).slice_other hl hrun (offset_ne_of_load hf hg) hi v
  case closures => exact fun c => get?_setValue (fun _ => rfl) hold v c
  case continuations => exact fun k => get?_setValue (fun _ => rfl) hold v k

end Heap

end ClosureMachine
