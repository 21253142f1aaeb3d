import ClosureMachine.Arena.Block

/-!
How values lie in blocks. A region is an array of blocks of some type `β`; a type is storable when
element `i` of a run that starts at block `base` can be read and written there. The laws say that
a write stays inside the blocks of its element, that a read looks nowhere else, and that elements
of one run do not disturb each other.
-/

namespace ClosureMachine

class Storable (β : Type) (α : Type) where
  size : Nat
  alignment : Nat
  /-- Element `i` of the run at `base` is `read region base i`. -/
  read : Array β → Nat → Nat → Option α
  /-- Replacing element `i` of the run at `base` by `x` is `write region base i x`. -/
  write : Array β → Nat → Nat → α → Array β

namespace Storable

variable {β α : Type} [Storable β α]

def blocks (β α : Type) [Storable β α] (n : Nat) : Nat := blocksFor (n * size β α)

def writeFrom (base : Nat) : Nat → List α → Array β → Array β
  | _, [], region => region
  | i, x :: xs, region => writeFrom base (i + 1) xs (write region base i x)

def readFirst (region : Array β) (base n : Nat) : Option (List α) :=
  (List.range n).mapM (read region base)

end Storable

/-- Block `k` is one of those that element `i` of a run at `base` touches. -/
def Storable.Touches (β α : Type) [Storable β α] (base i k : Nat) : Prop :=
  base * blockSize + i * size β α < (k + 1) * blockSize ∧
    k * blockSize < base * blockSize + (i + 1) * size β α

class LawfulStorable (β : Type) (α : Type) [Storable β α] : Prop where
  size_write (region : Array β) (base i : Nat) (x : α) :
    (Storable.write region base i x).size = region.size
  read_write_same (region : Array β) (base i : Nat) (x : α)
    (h : base * blockSize + (i + 1) * Storable.size β α ≤ region.size * blockSize) :
    Storable.read (Storable.write region base i x) base i = some x
  read_write_other (region : Array β) (base i j : Nat) (x : α) (h : i ≠ j) :
    Storable.read (Storable.write region base i x) base j =
      (Storable.read region base j : Option α)
  write_outside (region : Array β) (base i k : Nat) (x : α)
    (h : ¬ Storable.Touches β α base i k) :
    (Storable.write region base i x)[k]? = region[k]?
  read_congr (region region' : Array β) (base i : Nat)
    (h : ∀ k, Storable.Touches β α base i k → region[k]? = region'[k]?) :
    (Storable.read region base i : Option α) = Storable.read region' base i

end ClosureMachine
