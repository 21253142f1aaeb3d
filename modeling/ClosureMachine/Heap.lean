import ClosureMachine.Arena.Access
import ClosureMachine.Value

/-!
The machine's own arena. Every record and every value takes exactly one block, so a block is a
cell that holds one of them. A cell read as something else than was written to it is refused like a
stale handle. An arena of bytes looks at generation and bounds only and reads the bytes that are
there; the two differ after a control stack of an earlier epoch has been linked into the current one.
-/

namespace ClosureMachine

/-- The contents of one block. -/
inductive Cell where
  /-- Taken but not written yet. -/
  | blank
  | value (v : Value)
  | environment (h : EnvHeader)
  | frame (h : FrameHeader)
  | closure (c : Closure)
  | continuation (k : Continuation)
  deriving DecidableEq, Repr

instance : Inhabited Cell := ⟨.blank⟩

namespace Cell

def value? : Cell → Option Value
  | value v => some v
  | _ => none

def environment? : Cell → Option EnvHeader
  | environment h => some h
  | _ => none

def frame? : Cell → Option FrameHeader
  | frame h => some h
  | _ => none

def closure? : Cell → Option Closure
  | closure c => some c
  | _ => none

def continuation? : Cell → Option Continuation
  | continuation k => some k
  | _ => none

/-- Store a type one element per cell. -/
@[reducible] def storable {α : Type} (inject : α → Cell) (project : Cell → Option α) :
    Storable Cell α where
  size := blockSize
  alignment := 8
  read region base i := region[base + i]?.bind project
  write region base i x := region.setIfInBounds (base + i) (inject x)

/-- An element touches its own cell and no other. -/
theorem touches_iff {α : Type} (inject : α → Cell) (project : Cell → Option α) (base i k : Nat) :
    @Storable.Touches Cell α (storable inject project) base i k ↔ k = base + i := by
  change base * 16 + i * 16 < (k + 1) * 16 ∧ k * 16 < base * 16 + (i + 1) * 16 ↔ k = base + i
  omega

/-- Cells obey the laws of storage if what is put into a cell can be taken out of it. -/
theorem storable_lawful {α : Type} {inject : α → Cell} {project : Cell → Option α}
    (h : ∀ x, project (inject x) = some x) : @LawfulStorable Cell α (storable inject project) := by
  let _ := storable inject project
  constructor
  case size_write => intros; exact Array.size_setIfInBounds
  case read_write_same =>
    intro region base i x hb
    have hi : base + i < region.size := by
      change base * blockSize + (i + 1) * blockSize ≤ region.size * blockSize at hb
      simp only [blockSize] at hb
      omega
    simp [Storable.read, Storable.write, hi, h]
  case read_write_other =>
    intro region base i j x hij
    have : base + i ≠ base + j := by omega
    simp [Storable.read, Storable.write, Array.getElem?_setIfInBounds_ne this]
  case write_outside =>
    intro region base i k x hk
    have : base + i ≠ k := fun e => hk ((touches_iff inject project base i k).mpr e.symm)
    exact Array.getElem?_setIfInBounds_ne this
  case read_congr =>
    intro region region' base i hk
    simp only [Storable.read, hk _ ((touches_iff inject project base i (base + i)).mpr rfl)]

end Cell

instance : Storable Cell Value := Cell.storable .value Cell.value?

instance : LawfulStorable Cell Value := Cell.storable_lawful fun _ => rfl

instance : Storable Cell EnvHeader := Cell.storable .environment Cell.environment?

instance : LawfulStorable Cell EnvHeader := Cell.storable_lawful fun _ => rfl

instance : Storable Cell FrameHeader := Cell.storable .frame Cell.frame?

instance : LawfulStorable Cell FrameHeader := Cell.storable_lawful fun _ => rfl

instance : Storable Cell Closure := Cell.storable .closure Cell.closure?

instance : LawfulStorable Cell Closure := Cell.storable_lawful fun _ => rfl

instance : Storable Cell Continuation := Cell.storable .continuation Cell.continuation?

instance : LawfulStorable Cell Continuation := Cell.storable_lawful fun _ => rfl

/-- An arena of cells. -/
abbrev Heap := Arena Cell

end ClosureMachine
