import ClosureMachine.Toml.Statement

/-!
Documents: the table that statements build up. Entries go into the table that the last header
opened, and into the outermost one before the first header.
-/

namespace ClosureMachine.Toml

/-- The table built so far and the path of the table that is open. -/
structure Document where
  root : Table := []
  current : List String := []

namespace Document

/-- Carry out one statement, unless it contradicts those before it. -/
def apply (d : Document) : Statement → Option Document
  | .table k => do return ⟨← d.root.openTable k.path k.key, k.toList⟩
  | .element k => do return ⟨← d.root.openElement k.path k.key, k.toList⟩
  | .entry k i => do return { d with root := ← d.root.insertAt d.current k.path k.key i }

def ofStatements? (ss : List Statement) : Option Document := ss.foldlM apply {}

/-- A byte order mark in front of a text is not part of it. -/
def dropMark : List Char → List Char
  | '\uFEFF' :: cs => cs
  | cs => cs

def read? (text : String) : Option Table := do
  let cs := dropMark text.toList
  let ss ← statements (cs.length + 1) cs
  return (← ofStatements? ss).root

end Document

def parse? (text : String) : Option Entries := (Document.read? text).map Table.entries

end ClosureMachine.Toml
