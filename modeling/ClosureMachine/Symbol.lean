/-!
Interned symbols. A table lists distinct spellings in the order in which they were first met, and
the id of a symbol is its position: ids are dense, start at zero and never change. This is the table
as its users see it; how it is kept is in `ClosureMachine.Interner`. Several handles may stand for
one table; an operation through any of them is seen through all.
-/

namespace ClosureMachine

/-- Position of a spelling in a symbol table. -/
abbrev SymbolId := Nat

/-- How an id is written when no spelling is known for it. -/
def symbolLabel (id : SymbolId) : String := s!"#:sym{id}"

/-- The distinct spellings met so far, in order of first use. -/
structure SymbolTable where
  names : Array String := #[]
  deriving DecidableEq, Repr, Inhabited

structure UnknownSymbol where
  id : SymbolId
  deriving DecidableEq, Repr

def UnknownSymbol.message (e : UnknownSymbol) : String :=
  s!"resolve of unknown interned id {e.id}"

namespace SymbolTable

def empty : SymbolTable := {}

def size (t : SymbolTable) : Nat := t.names.size

def isEmpty (t : SymbolTable) : Bool := t.names.isEmpty

def find? (t : SymbolTable) (s : String) : Option SymbolId := t.names.idxOf? s

def name? (t : SymbolTable) (id : SymbolId) : Option String := t.names[id]?

/-- The spelling an id was issued for, or the complaint that there is none. -/
def resolve (t : SymbolTable) (id : SymbolId) : Except UnknownSymbol String :=
  match t.name? id with
  | some s => .ok s
  | none => .error ⟨id⟩

/-- The id of a spelling; a new spelling takes the next free id. -/
def intern (t : SymbolTable) (s : String) : SymbolId × SymbolTable :=
  match t.find? s with
  | some id => (id, t)
  | none => (t.size, ⟨t.names.push s⟩)

def internAll (t : SymbolTable) : List String → List SymbolId × SymbolTable
  | [] => ([], t)
  | s :: rest =>
    let (id, t) := t.intern s
    let (ids, t) := t.internAll rest
    (id :: ids, t)

def toList (t : SymbolTable) : List (SymbolId × String) :=
  t.names.toList.zipIdx.map fun (s, i) => (i, s)

/-- The spelling of an id, or its label when it was never issued. -/
def display (t : SymbolTable) (id : SymbolId) : String := (t.name? id).getD (symbolLabel id)

theorem intern_of_find? {t : SymbolTable} {s : String} {id : SymbolId} (h : t.find? s = some id) :
    t.intern s = (id, t) := by
  simp [intern, h]

theorem intern_of_not_found {t : SymbolTable} {s : String} (h : t.find? s = none) :
    t.intern s = (t.size, ⟨t.names.push s⟩) := by
  simp [intern, h]

end SymbolTable

/-- Things together with the handles that stand for them. Handle `h` stands for what is at position
`handles[h]`, so two handles share a thing exactly when they hold the same position. -/
structure Shared (τ : Type) where
  tables : Array τ := #[]
  handles : Array Nat := #[]
  deriving DecidableEq, Repr, Inhabited

namespace Shared

variable {τ : Type}

def table? (s : Shared τ) (h : Nat) : Option τ := s.handles[h]?.bind (s.tables[·]?)

def share (s : Shared τ) (t : τ) : Nat × Shared τ :=
  (s.handles.size, ⟨s.tables.push t, s.handles.push s.tables.size⟩)

/-- A further handle for what `h` stands for. -/
def clone? (s : Shared τ) (h : Nat) : Option (Nat × Shared τ) :=
  s.handles[h]?.map fun i => (s.handles.size, { s with handles := s.handles.push i })

/-- Run one operation on what `h` stands for; no other operation comes in between. -/
def update? {α : Type} (s : Shared τ) (h : Nat) (f : τ → α × τ) : Option (α × Shared τ) := do
  let i ← s.handles[h]?
  let t ← s.tables[i]?
  let (x, t) := f t
  return (x, { s with tables := s.tables.setIfInBounds i t })

end Shared

abbrev SharedTables := Shared SymbolTable

end ClosureMachine
