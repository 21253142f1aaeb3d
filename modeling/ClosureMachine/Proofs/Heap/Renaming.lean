import ClosureMachine.Proofs.Heap.Cells
import Mathlib.Logic.Function.Basic

/-!
Renaming generations. `ρ` gives every generation number another one; a handle is renamed by renaming
its generation, and a record by renaming the handles in it. Links have no generation, so the heads
of stored frames stay as they are. `Heap.moved ρ` is the heap with everything in it renamed, as an
arena that never held more than it holds now.

If `ρ` is injective, every operation on the heap commutes with it: what is read is what was there,
renamed, and what is stored goes to the same place.
-/

namespace ClosureMachine

/-! ## Handles and records -/

def Addr.rename (ρ : Nat → Nat) (a : Addr) : Addr := ⟨a.offset, ρ a.generation⟩

def Ref.rename {α : Type} (ρ : Nat → Nat) (r : Ref α) : Ref α := ⟨r.addr.rename ρ⟩

def Slice.rename {α : Type} (ρ : Nat → Nat) (s : Slice α) : Slice α :=
  { s with generation := ρ s.generation }

def Value.rename (ρ : Nat → Nat) : Value → Value
  | closure r => closure (r.rename ρ)
  | continuation r => continuation (r.rename ρ)
  | v => v

def Closure.rename (ρ : Nat → Nat) (c : Closure) : Closure :=
  { c with env := c.env.map (Ref.rename ρ) }

def Continuation.rename (ρ : Nat → Nat) (k : Continuation) : Continuation :=
  { k with stack := k.stack.map (Ref.rename ρ) }

def Cell.rename (ρ : Nat → Nat) : Cell → Cell
  | value v => value (v.rename ρ)
  | closure c => closure (c.rename ρ)
  | continuation k => continuation (k.rename ρ)
  | c => c

def CallFrame.rename (ρ : Nat → Nat) (f : CallFrame) : CallFrame :=
  { f with
    env := f.env.map (Ref.rename ρ)
    rib := f.rib.rename ρ
    link := f.link.map (Ref.rename ρ) }

def EnvFrame.rename (ρ : Nat → Nat) (f : EnvFrame) : EnvFrame :=
  { f with values := f.values.rename ρ, parent := f.parent.map (Ref.rename ρ) }

def Binding.rename (ρ : Nat → Nat) : Binding → Binding
  | slot values index => slot (values.rename ρ) index
  | b => b

theorem Value.rename_of_unboxed (ρ : Nat → Nat) {v : Value} (h : v.isBoxed = false) :
    v.rename ρ = v := by
  cases v with
  | closure r => cases h
  | continuation r => cases h
  | _ => rfl

theorem Value.isTruthy_rename (ρ : Nat → Nat) (v : Value) :
    (v.rename ρ).isTruthy = v.isTruthy := by
  cases v <;> rfl

@[simp] theorem Link.ofRef?_rename {α : Type} (ρ : Nat → Nat) (r : Option (Ref α)) :
    ofRef? (r.map (Ref.rename ρ)) = ofRef? r := by
  cases r <;> rfl

theorem Link.resolve_rename {α : Type} (ρ : Nat → Nat) (l : Link) (g : Nat) :
    (l.resolve (ρ g) : Option (Ref α)) = (l.resolve g).map (Ref.rename ρ) := by
  unfold Link.resolve
  split <;> rfl

namespace Heap

variable {ρ : Nat → Nat}

/-- The heap with all its handles renamed. -/
def moved (ρ : Nat → Nat) (heap : Heap) : Heap :=
  { capacity := heap.capacity
    region := heap.region.map (Cell.rename ρ)
    highWater := heap.used
    generation := ρ heap.generation }

section

variable (ρ) (heap : Heap)

@[simp] theorem moved_capacity : (heap.moved ρ).capacity = heap.capacity := rfl

@[simp] theorem moved_generation : (heap.moved ρ).generation = ρ heap.generation := rfl

@[simp] theorem moved_used : (heap.moved ρ).used = heap.used := Array.size_map

@[simp] theorem moved_remaining : (heap.moved ρ).remaining = heap.remaining := by
  simp [Arena.remaining]

theorem cell?_moved (o : Nat) : (heap.moved ρ).cell? o = (heap.cell? o).map (Cell.rename ρ) :=
  Array.getElem?_map

/-- Storing renamed cells is storing the cells and renaming all. -/
theorem moved_extend (cells : List Cell) :
    (heap.moved ρ).extend (cells.map (Cell.rename ρ)) = (heap.extend cells).moved ρ := by
  have hw : max heap.region.size (heap.region.size + cells.length) =
      heap.region.size + cells.length := by omega
  simp only [extend, moved, Arena.used, Array.size_map, List.length_map, Array.map_append,
    Array.size_append, List.size_toArray, List.map_toArray, hw]

theorem moved_setValue (o : Nat) (v : Value) :
    (heap.moved ρ).setValue o (v.rename ρ) = (heap.setValue o v).moved ρ := by
  simp only [setValue, moved, Arena.used, Array.size_setIfInBounds, Array.map_setIfInBounds,
    Cell.rename]

end

theorem moved_of_empty {heap : Heap} (h : heap.region = #[]) :
    heap.moved ρ = ⟨heap.capacity, #[], 0, ρ heap.generation⟩ := by
  simp [moved, Arena.used, h]

/-! ## Reading -/

/-- What is read through a renamed handle is what was read before, renamed by `f`. -/
private theorem get?_moved {α : Type} {inject : α → Cell} {project : Cell → Option α}
    {f : α → α} (hp : ∀ c, project (c.rename ρ) = (project c).map f) (hρ : Function.Injective ρ)
    (heap : Heap) (r : Ref α) :
    @Arena.get? Cell α (Cell.storable inject project) (heap.moved ρ) (r.rename ρ) =
      (@Arena.get? Cell α (Cell.storable inject project) heap r).map f := by
  rw [get?_storable, get?_storable, cell?_moved]
  simp only [Ref.rename, Addr.rename, moved_generation, hρ.eq_iff]
  split
  · cases heap.cell? r.addr.offset with
    | none => rfl
    | some c => exact hp c
  · rfl

theorem get?_closure_moved (hρ : Function.Injective ρ) (heap : Heap) (r : Ref Closure) :
    (heap.moved ρ).get? (r.rename ρ) = (heap.get? r).map (Closure.rename ρ) :=
  get?_moved (fun c => by cases c <;> rfl) hρ heap r

theorem get?_continuation_moved (hρ : Function.Injective ρ) (heap : Heap) (r : Ref Continuation) :
    (heap.moved ρ).get? (r.rename ρ) = (heap.get? r).map (Continuation.rename ρ) :=
  get?_moved (fun c => by cases c <;> rfl) hρ heap r

theorem get?_environment_moved (hρ : Function.Injective ρ) (heap : Heap) (r : EnvRef) :
    (heap.moved ρ).get? (r.rename ρ) = heap.get? r := by
  refine (get?_moved (f := id) (fun c => ?_) hρ heap r).trans ?_
  · cases c <;> rfl
  · exact Option.map_id_apply

theorem get?_frame_moved (hρ : Function.Injective ρ) (heap : Heap) (r : FrameRef) :
    (heap.moved ρ).get? (r.rename ρ) = heap.get? r := by
  refine (get?_moved (f := id) (fun c => ?_) hρ heap r).trans ?_
  · cases c <;> rfl
  · exact Option.map_id_apply

theorem isLiveSlice_moved (hρ : Function.Injective ρ) (heap : Heap) (s : Slice Value) :
    (heap.moved ρ).isLiveSlice (s.rename ρ) = heap.isLiveSlice s := by
  rw [Bool.eq_iff_iff, isLiveSlice_iff, isLiveSlice_iff]
  simp only [Slice.rename, moved_generation, moved_used, hρ.eq_iff]

theorem slice?_moved (hρ : Function.Injective ρ) (heap : Heap) (s : Slice Value) :
    (heap.moved ρ).slice? (s.rename ρ) = (heap.slice? s).map (List.map (Value.rename ρ)) :=
  slice?_map (fun c => by cases c <;> rfl) rfl (isLiveSlice_moved hρ heap s) rfl rfl

theorem setAt_moved (hρ : Function.Injective ρ) (heap : Heap) (s : Slice Value) (i : Nat)
    (v : Value) :
    (heap.moved ρ).setAt (s.rename ρ) i (v.rename ρ) =
      ((heap.setAt s i v).1, moved ρ (heap.setAt s i v).2) := by
  simp only [Arena.setAt, isLiveSlice_moved hρ]
  simp only [Slice.rename]
  by_cases h0 : s.length = 0
  · simp only [h0, ↓reduceIte]
  · cases hl : heap.isLiveSlice s with
    | false => simp only [h0, ↓reduceIte, Bool.false_eq_true]
    | true =>
      by_cases hi : i < s.length
      · simp only [h0, hi, ↓reduceIte]
        exact congrArg (Prod.mk _) (moved_setValue ρ heap (s.offset + i) v)
      · simp only [h0, hi, ↓reduceIte]

end Heap

theorem CallFrame.load?_moved {ρ : Nat → Nat} (hρ : Function.Injective ρ) (heap : Heap)
    (top : FrameRef) :
    load? (heap.moved ρ) (top.rename ρ) = (load? heap top).map (CallFrame.rename ρ) := by
  simp only [load?, Heap.get?_frame_moved hρ, Option.map_map]
  congr 1
  funext head
  simp only [Function.comp_apply, CallFrame.rename, Ref.rename, Addr.rename, Link.resolve_rename]
  rfl

theorem EnvFrame.load?_moved {ρ : Nat → Nat} (hρ : Function.Injective ρ) (heap : Heap)
    (env : EnvRef) :
    load? (heap.moved ρ) (env.rename ρ) = (load? heap env).map (EnvFrame.rename ρ) := by
  simp only [load?, Heap.get?_environment_moved hρ, Option.map_map]
  congr 1
  funext head
  simp only [Function.comp_apply, EnvFrame.rename, Ref.rename, Addr.rename, Link.resolve_rename]
  rfl

/-- The search for a variable goes the same way. -/
theorem Binding.search_moved {ρ : Nat → Nat} (hρ : Function.Injective ρ) (heap : Heap)
    (code : Code) (var : SymbolId) (fuel : Nat) (env : Option EnvRef) :
    search (heap.moved ρ) code var fuel (env.map (Ref.rename ρ)) =
      (search heap code var fuel env).rename ρ := by
  induction fuel generalizing env with
  | zero => cases env <;> rfl
  | succ fuel ih =>
    cases env with
    | none => rfl
    | some r =>
      simp only [Option.map_some, search, EnvFrame.load?_moved hρ]
      cases EnvFrame.load? heap r with
      | none => rfl
      | some frame =>
        simp only [Option.map_some, EnvFrame.rename]
        cases code.formals? frame.names with
        | none => rfl
        | some names =>
          simp only
          cases names.idxOf? var with
          | some index => rfl
          | none => exact ih frame.parent

theorem Binding.find_moved {ρ : Nat → Nat} (hρ : Function.Injective ρ) (heap : Heap)
    (code : Code) (env : Option EnvRef) (var : SymbolId) :
    find (heap.moved ρ) code (env.map (Ref.rename ρ)) var = (find heap code env var).rename ρ := by
  rw [find, Heap.moved_used]
  exact search_moved hρ heap code var (heap.used + 1) env

end ClosureMachine
