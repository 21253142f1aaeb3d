import ClosureMachine.Toml.Value

/-!
TOML data while it is read. A table is filled in place as the statements of a document go by, so a
table remembers how it came about: by a header of its own, on the way to a longer header, or on the
way of a dotted key. That decides what may still be added to it.
-/

namespace ClosureMachine.Toml

inductive Origin where
  | header
  /-- By a header that names a table inside it. -/
  | implied
  /-- By a dotted key that leads through it. -/
  | dotted
  deriving DecidableEq, Repr

inductive Item where
  | scalar (s : Scalar)
  | array (items : List Item)
  /-- A table written in braces; nothing can be added to it. -/
  | inline (entries : List (String × Item))
  | table (origin : Origin) (entries : List (String × Item))
  /-- Tables that were opened one after the other under one name. -/
  | tables (elements : List (List (String × Item)))
  deriving Repr, Inhabited

abbrev Table := List (String × Item)

namespace Table

def replace (key : String) (item : Item) : Table → Table
  | [] => []
  | (k, i) :: rest => if key == k then (k, item) :: rest else (k, i) :: replace key item rest

def changeLast (f : Table → Option Table) : List Table → Option (List Table)
  | [] => none
  | [t] => (f t).map fun t => [t]
  | t :: rest => (changeLast f rest).map (t :: ·)

/-- Follow a path from a table and change the table it leads to, by `f`, which is told how that
table came about. Tables missing on the way are made, of origin `made`. A dotted key does not lead
through a table that has a header of its own. -/
def follow (made : Origin) (f : Origin → Table → Option Table) :
    List String → Origin → Table → Option Table
  | [], origin, t => f origin t
  | key :: path, _, t =>
    match t.lookup key with
    | none => do
      let child ← follow made f path made []
      return t ++ [(key, .table made child)]
    | some (.table origin child) =>
      if made = .dotted ∧ origin = .header then none
      else do
        let child ← follow made f path origin child
        return t.replace key (.table origin child)
    | some (.tables elements) => do
      let elements ← changeLast (follow made f path .header) elements
      return t.replace key (.tables elements)
    | some _ => none

/-- Add an entry under a dotted key, which must lead to a table made by dotted keys. -/
def insert (t : Table) (path : List String) (key : String) (item : Item) : Option Table :=
  follow .dotted
    (fun origin t =>
      if (path ≠ [] ∧ origin ≠ .dotted) ∨ (t.lookup key).isSome then none
      else some (t ++ [(key, item)]))
    path .header t

/-- Open a table by its header. A table that was only implied so far keeps what it has. -/
def openTable (t : Table) (path : List String) (key : String) : Option Table :=
  follow .implied
    (fun _ t =>
      match t.lookup key with
      | none => some (t ++ [(key, .table .header [])])
      | some (.table .implied child) => some (t.replace key (.table .header child))
      | some _ => none)
    path .header t

def openElement (t : Table) (path : List String) (key : String) : Option Table :=
  follow .implied
    (fun _ t =>
      match t.lookup key with
      | none => some (t ++ [(key, .tables [[]])])
      | some (.tables elements) => some (t.replace key (.tables (elements ++ [[]])))
      | some _ => none)
    path .header t

def insertAt (t : Table) (current : List String) (path : List String) (key : String)
    (item : Item) : Option Table :=
  follow .implied (fun _ t => t.insert path key item) current .header t

end Table

/-! ### What was read -/

mutual

/-- The value of an item. Tables under one name make an array. -/
def Item.value : Item → Value
  | .scalar s => .scalar s
  | .array items => .array (Item.values items)
  | .inline t => .table (Table.entries t)
  | .table _ t => .table (Table.entries t)
  | .tables ts => .array (Table.values ts)

def Item.values : List Item → List Value
  | [] => []
  | i :: items => i.value :: Item.values items

def Table.entries : Table → Entries
  | [] => []
  | (key, i) :: t => (key, i.value) :: Table.entries t

def Table.values : List Table → List Value
  | [] => []
  | t :: ts => .table (Table.entries t) :: Table.values ts

end

end ClosureMachine.Toml
