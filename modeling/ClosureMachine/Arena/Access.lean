import ClosureMachine.Arena.Basic

/-!
Typed storage in an arena: single values, slices of values, and records with a tail, which are a
header and a slice in one run. Every access checks that the handle is live; a handle that is not is
refused, and nothing is read through it.
-/

namespace ClosureMachine

inductive StaleHandle where
  | reference (addr : Addr)
  | slice (offset length generation : Nat)
  deriving DecidableEq, Repr

def StaleHandle.message : StaleHandle → String
  | reference addr => "stale arena reference " ++ (Ref.mk addr : Ref Unit).text
  | slice offset length generation =>
    "stale arena slice " ++ (Slice.mk offset length generation : Slice Unit).text

inductive SliceFault where
  | stale
  | outOfRange
  deriving DecidableEq, Repr

/-- The values behind a header of type `η`: they begin in the block after it. The length is clamped
to a word, and so is the offset. -/
def Ref.tail {η : Type} (β α : Type) [Storable β η] (r : Ref η) (length : Nat) : Slice α where
  offset := min (r.addr.offset + Storable.blocks β η 1) (wordLimit - 1)
  length := min length (wordLimit - 1)
  generation := r.addr.generation

namespace Arena

variable {β α η : Type} [Inhabited β]

def overAligned (β α : Type) [Storable β α] : Bool := blockSize < Storable.alignment β α

/-- Take blocks for a run of `header` blocks and `n` further values. The handle's byte count must
fit in 64 bits. -/
def allocateRun (a : Arena β) (header bytes : Nat) : Except ArenaError Addr × Arena β :=
  if longLimit ≤ bytes then (.error (.outOfMemory (longLimit - 1) a.remaining a.capacity), a)
  else a.allocate (header + blocksFor bytes)

def alloc [Storable β α] (a : Arena β) (x : α) : Except ArenaError (Ref α) × Arena β :=
  if overAligned β α then (.error .overAligned, a)
  else match a.allocate (Storable.blocks β α 1) with
    | (.error e, a) => (.error e, a)
    | (.ok addr, a) => (.ok ⟨addr⟩, { a with region := Storable.write a.region addr.offset 0 x })

/-- Store values side by side in fresh blocks. The handle keeps the length in one word. -/
def allocSlice [Storable β α] (a : Arena β) (xs : List α) :
    Except ArenaError (Slice α) × Arena β :=
  if overAligned β α then (.error .overAligned, a)
  else match a.allocateRun 0 (xs.length * Storable.size β α) with
    | (.error e, a) => (.error e, a)
    | (.ok addr, a) =>
      (.ok ⟨addr.offset, xs.length % wordLimit, addr.generation⟩,
        { a with region := Storable.writeFrom addr.offset 0 xs a.region })

/-- Store a header and, from the next block on, the values of its tail, as one run. -/
def allocWithTail [Storable β η] [Storable β α] (a : Arena β) (h : η) (xs : List α) :
    Except ArenaError (Ref η) × Arena β :=
  if overAligned β η || overAligned β α then (.error .overAligned, a)
  else
    let front := Storable.blocks β η 1
    match a.allocateRun front (xs.length * Storable.size β α) with
    | (.error e, a) => (.error e, a)
    | (.ok addr, a) =>
      (.ok ⟨addr⟩,
        { a with
          region := Storable.writeFrom (addr.offset + front) 0 xs
            (Storable.write a.region addr.offset 0 h) })

def get? [Storable β α] (a : Arena β) (r : Ref α) : Option α :=
  if a.isLive r.addr (Storable.blocks β α 1) then Storable.read a.region r.addr.offset 0 else none

def get [Storable β α] (a : Arena β) (r : Ref α) : Except StaleHandle α :=
  match a.get? r with
  | some x => .ok x
  | none => .error (.reference r.addr)

def set [Storable β α] (a : Arena β) (r : Ref α) (x : α) : Except StaleHandle Unit × Arena β :=
  if a.isLive r.addr (Storable.blocks β α 1) then
    (.ok (), { a with region := Storable.write a.region r.addr.offset 0 x })
  else (.error (.reference r.addr), a)

def isLiveSlice [Storable β α] (a : Arena β) (s : Slice α) : Bool :=
  a.isLive ⟨s.offset, s.generation⟩ (Storable.blocks β α s.length)

/-- The values of a slice, if it is live. An empty slice has none, live or not. -/
def slice? [Storable β α] (a : Arena β) (s : Slice α) : Option (List α) :=
  if s.length = 0 then some []
  else if a.isLiveSlice s then Storable.readFirst a.region s.offset s.length
  else none

def slice [Storable β α] (a : Arena β) (s : Slice α) : Except StaleHandle (List α) :=
  match a.slice? s with
  | some xs => .ok xs
  | none => .error (.slice s.offset s.length s.generation)

def setAt [Storable β α] (a : Arena β) (s : Slice α) (i : Nat) (x : α) :
    Except SliceFault Unit × Arena β :=
  if s.length = 0 then (.error .outOfRange, a)
  else if a.isLiveSlice s then
    if i < s.length then
      (.ok (), { a with region := Storable.write a.region s.offset i x })
    else (.error .outOfRange, a)
  else (.error .stale, a)

end Arena

end ClosureMachine
