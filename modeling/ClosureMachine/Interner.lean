import ClosureMachine.Symbol
import ClosureMachine.Word
import Std.Data.HashMap

/-!
The symbol table as it is kept: a vector that leads from ids to spellings, and a hash map that leads
back. An id is a word, and when all of them are given out a new spelling cannot be interned.
-/

namespace ClosureMachine

structure Interner where
  strings : Array String := #[]
  lookup : Std.HashMap String SymbolId := {}

/-- No id is left for a new spelling. -/
structure TableFull where
  deriving DecidableEq, Repr

def TableFull.message (_ : TableFull) : String := "intern table full"

namespace Interner

def size (t : Interner) : Nat := t.strings.size

def isEmpty (t : Interner) : Bool := t.strings.isEmpty

def find? (t : Interner) (s : String) : Option SymbolId := t.lookup[s]?

def name? (t : Interner) (id : SymbolId) : Option String := t.strings[id]?

def resolve (t : Interner) (id : SymbolId) : Except UnknownSymbol String :=
  match t.name? id with
  | some s => .ok s
  | none => .error ⟨id⟩

/-- The id of a spelling; a new spelling takes the next free id, in both structures. -/
def intern (t : Interner) (s : String) : Except TableFull SymbolId × Interner :=
  match t.find? s with
  | some id => (.ok id, t)
  | none =>
    if t.size < wordLimit then
      (.ok t.size, { strings := t.strings.push s, lookup := t.lookup.insert s t.size })
    else (.error {}, t)

def toList (t : Interner) : List (SymbolId × String) :=
  t.strings.toList.zipIdx.map fun (s, i) => (i, s)

/-- The table as its users see it. -/
def table (t : Interner) : SymbolTable := ⟨t.strings⟩

end Interner

abbrev SharedInterners := Shared Interner

end ClosureMachine
