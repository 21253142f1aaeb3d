import ClosureMachine.Arena.Handle
import ClosureMachine.Arena.Storable

/-!
The arena: a region of blocks with a fixed capacity, filled from the front and emptied only as a
whole. Emptying it begins a new generation, and a handle is live only in the generation that issued
it. Generation numbers come from one counter for all arenas and are never issued twice.
-/

namespace ClosureMachine

/-- The next generation number; zero means that all numbers are spent. -/
structure Generations where
  next : Nat := 1
  deriving DecidableEq, Repr, Inhabited

/-- Issue a number. After the largest word the counter is spent. -/
def Generations.issue? (g : Generations) : Option (Nat × Generations) :=
  if g.next = 0 then none else some (g.next, ⟨(g.next + 1) % wordLimit⟩)

inductive ArenaError where
  | outOfMemory (requested remaining capacity : Nat)
  | reserve (blocks : Nat)
  | generationsExhausted
  | overAligned
  deriving DecidableEq, Repr

def ArenaError.message : ArenaError → String
  | outOfMemory requested remaining capacity =>
    s!"arena out of memory: requested {requested} blocks, {remaining} of {capacity} remaining"
  | reserve blocks => s!"cannot reserve an arena of {blocks} blocks"
  | generationsExhausted => "arena generations exhausted"
  | overAligned => "type alignment exceeds arena block alignment"

/-- A region of at most `capacity` blocks, of which the first `region.size` are in use. -/
structure Arena (β : Type) where
  capacity : Nat
  region : Array β := #[]
  highWater : Nat := 0
  generation : Nat
  deriving Repr, Inhabited

namespace Arena

variable {β : Type}

/-- Blocks in use, which is also the offset of the next run. -/
def used (a : Arena β) : Nat := a.region.size

def remaining (a : Arena β) : Nat := a.capacity - a.used

def bytesInUse (a : Arena β) : Nat := a.used * blockSize

/-- An empty arena in a fresh generation. Capacities are positive and fit in a word. -/
def create (capacity : Nat) (gens : Generations) : Except ArenaError (Arena β × Generations) :=
  if capacity = 0 ∨ wordLimit ≤ capacity then .error (.reserve capacity)
  else match gens.issue? with
    | none => .error .generationsExhausted
    | some (g, gens) => .ok (⟨capacity, #[], 0, g⟩, gens)

def reset (a : Arena β) (gens : Generations) : Except ArenaError (Arena β × Generations) :=
  match gens.issue? with
  | none => .error .generationsExhausted
  | some (g, gens) => .ok ({ a with region := #[], generation := g }, gens)

/-- Whether a run of `blocks` blocks at `addr` lies in the part in use, in this generation. -/
def isLive (a : Arena β) (addr : Addr) (blocks : Nat) : Bool :=
  addr.generation == a.generation && addr.offset + blocks ≤ a.used

/-- Take the next `n` blocks. A request that does not fit changes nothing. -/
def allocate [Inhabited β] (a : Arena β) (n : Nat) : Except ArenaError Addr × Arena β :=
  if a.remaining < n then
    (.error (.outOfMemory n a.remaining a.capacity), a)
  else
    let addr : Addr := ⟨a.used, a.generation⟩
    (.ok addr,
      { a with
        highWater := max a.highWater (a.used + n)
        region := a.region ++ Array.replicate n default })

def describe (a : Arena β) : String :=
  "Arena \x7b " ++
    s!"capacity_blocks: {a.capacity}, used_blocks: {a.used}, high_water_blocks: {a.highWater}, " ++
    s!"generation: {a.generation}" ++ " \x7d"

theorem allocate_of_fits [Inhabited β] {a : Arena β} {n : Nat} (h : n ≤ a.remaining) :
    a.allocate n = (.ok ⟨a.used, a.generation⟩,
      { a with
        highWater := max a.highWater (a.used + n)
        region := a.region ++ Array.replicate n default }) := by
  simp [allocate, Nat.not_lt.mpr h]

theorem allocate_of_full [Inhabited β] {a : Arena β} {n : Nat} (h : a.remaining < n) :
    a.allocate n = (.error (.outOfMemory n a.remaining a.capacity), a) := by
  simp [allocate, h]

end Arena

end ClosureMachine
