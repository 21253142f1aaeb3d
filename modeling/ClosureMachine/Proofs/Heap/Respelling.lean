import ClosureMachine.Proofs.Heap.Walks
import Mathlib.Logic.Function.Basic

/-!
Other ids for symbols. `σ` gives every symbol another id; a value is respelled if it is a symbol,
and the heap and the code by respelling the values and the variables in them. Records hold no
symbols, so all that is read from the heap but values stays as it is (`Heap.get?_closure_respelled`
and its siblings), and values are read respelled (`Heap.slice?_respelled`).

If `σ` is injective, a variable is bound where it was bound before (`Binding.find_respelled`).
-/

namespace ClosureMachine

/-! ## Values, cells and code -/

def Value.respell (σ : SymbolId → SymbolId) : Value → Value
  | symbol id => symbol (σ id)
  | v => v

def Cell.respell (σ : SymbolId → SymbolId) : Cell → Cell
  | value v => value (v.respell σ)
  | c => c

def Node.respell (σ : SymbolId → SymbolId) : Node → Node
  | refer var next => refer (σ var) next
  | constant v next => constant (v.respell σ) next
  | assign var next => assign (σ var) next
  | nuate stack var => nuate stack (var.map σ)
  | n => n

def Code.respell (σ : SymbolId → SymbolId) (c : Code) : Code :=
  ⟨c.nodes.map (Node.respell σ), c.formals.map (List.map σ)⟩

theorem Value.isTruthy_respell (σ : SymbolId → SymbolId) (v : Value) :
    (v.respell σ).isTruthy = v.isTruthy := by
  cases v <;> rfl

namespace Code

variable (σ : SymbolId → SymbolId) (c : Code)

@[simp] theorem size_respell : (c.respell σ).size = c.size := Array.size_map

theorem node?_respell (id : NodeId) : (c.respell σ).node? id = (c.node? id).map (Node.respell σ) :=
  Array.getElem?_map

theorem formals?_respell (f : FormalsId) :
    (c.respell σ).formals? f = (c.formals? f).map (List.map σ) :=
  Array.getElem?_map

end Code

theorem idxOf?_map_of_injective {σ : SymbolId → SymbolId} (hσ : Function.Injective σ)
    (names : List SymbolId) (var : SymbolId) :
    (names.map σ).idxOf? (σ var) = names.idxOf? var := by
  induction names with
  | nil => rfl
  | cons name names ih =>
    rw [List.map_cons, List.idxOf?_cons, List.idxOf?_cons, ih]
    simp only [beq_iff_eq, hσ.eq_iff]

/-! ## The heap -/

namespace Heap

/-- The heap with all its values respelled. -/
def respelled (σ : SymbolId → SymbolId) (heap : Heap) : Heap :=
  { heap with region := heap.region.map (Cell.respell σ) }

variable (σ : SymbolId → SymbolId) (heap : Heap)

@[simp] theorem respelled_capacity : (heap.respelled σ).capacity = heap.capacity := rfl

@[simp] theorem respelled_generation : (heap.respelled σ).generation = heap.generation := rfl

@[simp] theorem respelled_used : (heap.respelled σ).used = heap.used := Array.size_map

@[simp] theorem respelled_remaining : (heap.respelled σ).remaining = heap.remaining := by
  simp [Arena.remaining]

theorem cell?_respelled (o : Nat) :
    (heap.respelled σ).cell? o = (heap.cell? o).map (Cell.respell σ) :=
  Array.getElem?_map

theorem respelled_extend (cells : List Cell) :
    (heap.respelled σ).extend (cells.map (Cell.respell σ)) = (heap.extend cells).respelled σ := by
  simp only [extend, respelled, Arena.used, Array.size_map, List.length_map, Array.map_append,
    List.map_toArray]

/-- Of a stored frame only the values are respelled. -/
theorem map_respell_values (head : Cell) (hh : head.respell σ = head) (vs : List Value) :
    (head :: vs.map Cell.value).map (Cell.respell σ) =
      head :: (vs.map (Value.respell σ)).map Cell.value := by
  rw [List.map_cons, hh, List.map_map, List.map_map]
  rfl

theorem respelled_setValue (o : Nat) (v : Value) :
    (heap.respelled σ).setValue o (v.respell σ) = (heap.setValue o v).respelled σ := by
  simp only [setValue, respelled, Array.map_setIfInBounds, Cell.respell]

/-- Records that respelling leaves alone are read as before. -/
private theorem get?_respelled {α : Type} {inject : α → Cell} {project : Cell → Option α}
    (hp : ∀ c, project (c.respell σ) = project c) (r : Ref α) :
    @Arena.get? Cell α (Cell.storable inject project) (heap.respelled σ) r =
      @Arena.get? Cell α (Cell.storable inject project) heap r := by
  have hcell : ((heap.cell? r.addr.offset).map (Cell.respell σ)).bind project =
      (heap.cell? r.addr.offset).bind project := by
    cases heap.cell? r.addr.offset with
    | none => rfl
    | some c => exact hp c
  rw [get?_storable, get?_storable, cell?_respelled, hcell, respelled_generation]

theorem get?_closure_respelled (r : Ref Closure) : (heap.respelled σ).get? r = heap.get? r :=
  get?_respelled σ heap (fun c => by cases c <;> rfl) r

theorem get?_continuation_respelled (r : Ref Continuation) :
    (heap.respelled σ).get? r = heap.get? r :=
  get?_respelled σ heap (fun c => by cases c <;> rfl) r

theorem get?_environment_respelled (r : EnvRef) : (heap.respelled σ).get? r = heap.get? r :=
  get?_respelled σ heap (fun c => by cases c <;> rfl) r

theorem get?_frame_respelled (r : FrameRef) : (heap.respelled σ).get? r = heap.get? r :=
  get?_respelled σ heap (fun c => by cases c <;> rfl) r

theorem isLiveSlice_respelled (s : Slice Value) :
    (heap.respelled σ).isLiveSlice s = heap.isLiveSlice s := by
  rw [Bool.eq_iff_iff, isLiveSlice_iff, isLiveSlice_iff, respelled_generation, respelled_used]

theorem slice?_respelled (s : Slice Value) :
    (heap.respelled σ).slice? s = (heap.slice? s).map (List.map (Value.respell σ)) :=
  slice?_map (fun c => by cases c <;> rfl) rfl (isLiveSlice_respelled σ heap s) rfl rfl

theorem setAt_respelled (s : Slice Value) (i : Nat) (v : Value) :
    (heap.respelled σ).setAt s i (v.respell σ) =
      ((heap.setAt s i v).1, respelled σ (heap.setAt s i v).2) := by
  simp only [Arena.setAt, isLiveSlice_respelled]
  by_cases h0 : s.length = 0
  · simp only [h0, ↓reduceIte]
  · cases hl : heap.isLiveSlice s with
    | false => simp only [h0, ↓reduceIte, Bool.false_eq_true]
    | true =>
      by_cases hi : i < s.length
      · simp only [h0, hi, ↓reduceIte]
        exact congrArg (Prod.mk _) (respelled_setValue σ heap (s.offset + i) v)
      · simp only [h0, hi, ↓reduceIte]

end Heap

/-! ## Frames and environments -/

theorem CallFrame.load?_respelled (σ : SymbolId → SymbolId) (heap : Heap) (top : FrameRef) :
    load? (heap.respelled σ) top = load? heap top := by
  rw [load?, load?, Heap.get?_frame_respelled]

theorem CallFrame.chain?_respelled (σ : SymbolId → SymbolId) (heap : Heap)
    (top : Option FrameRef) : chain? (heap.respelled σ) top = chain? heap top :=
  chain?_congr (load?_respelled σ heap) (heap.respelled_used σ) top

theorem EnvFrame.load?_respelled (σ : SymbolId → SymbolId) (heap : Heap) (env : EnvRef) :
    load? (heap.respelled σ) env = load? heap env := by
  rw [load?, load?, Heap.get?_environment_respelled]

/-- The search for a variable goes the same way. -/
theorem Binding.search_respelled {σ : SymbolId → SymbolId} (hσ : Function.Injective σ)
    (heap : Heap) (code : Code) (var : SymbolId) (fuel : Nat) (env : Option EnvRef) :
    search (heap.respelled σ) (code.respell σ) (σ var) fuel env =
      search heap code var fuel env := by
  induction fuel generalizing env with
  | zero => cases env <;> rfl
  | succ fuel ih =>
    cases env with
    | none => rfl
    | some r =>
      simp only [search, EnvFrame.load?_respelled]
      cases EnvFrame.load? heap r with
      | none => rfl
      | some frame =>
        simp only [Code.formals?_respell]
        cases code.formals? frame.names with
        | none => rfl
        | some names =>
          simp only [Option.map_some, idxOf?_map_of_injective hσ]
          cases names.idxOf? var with
          | some index => rfl
          | none => exact ih frame.parent

theorem Binding.find_respelled {σ : SymbolId → SymbolId} (hσ : Function.Injective σ)
    (heap : Heap) (code : Code) (env : Option EnvRef) (var : SymbolId) :
    find (heap.respelled σ) (code.respell σ) env (σ var) = find heap code env var := by
  rw [find, Heap.respelled_used]
  exact search_respelled hσ heap code var (heap.used + 1) env

end ClosureMachine
