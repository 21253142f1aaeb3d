import ClosureMachine.Arena.Block

/-!
Handles into a region. An address names the first block of a run together with the generation in
which the run was issued; references and slices are addresses that also know what is stored there.
A link is the short form kept inside stored records: it drops the generation and is read back with
the generation of the record that holds it.
-/

namespace ClosureMachine

/-- The first block of a run, and the generation that issued it. -/
structure Addr where
  offset : Nat
  generation : Nat
  deriving DecidableEq, Repr, Inhabited

/-- Handle to one stored `α`. -/
structure Ref (α : Type) where
  addr : Addr
  deriving Repr, Inhabited

/-- Handle to `length` values of type `α` stored side by side. -/
structure Slice (α : Type) where
  offset : Nat
  length : Nat
  generation : Nat
  deriving Repr, Inhabited

/-- Offset of a record plus one; zero stands for no record. -/
structure Link where
  raw : Nat
  deriving DecidableEq, Repr, Inhabited

theorem Ref.ext_addr {α : Type} {r s : Ref α} (h : r.addr = s.addr) : r = s := by
  cases r; cases s; simp_all

instance {α : Type} : DecidableEq (Ref α) := fun r s =>
  decidable_of_iff (r.addr = s.addr) ⟨Ref.ext_addr, fun h => h ▸ rfl⟩

instance {α : Type} : DecidableEq (Slice α) := fun s t =>
  decidable_of_iff (s.offset = t.offset ∧ s.length = t.length ∧ s.generation = t.generation)
    ⟨fun ⟨a, b, c⟩ => by cases s; cases t; simp_all, fun h => by simp [h]⟩

namespace Link

/-- The link that leads nowhere. -/
def none : Link := ⟨0⟩

/-- The link to a record. It is one word, so the successor of the largest word is zero. -/
def ofRef? {α : Type} : Option (Ref α) → Link
  | some r => ⟨(r.addr.offset + 1) % wordLimit⟩
  | .none => none

def isNone (l : Link) : Bool := l.raw == 0

/-- The record a link leads to, in the given generation. -/
def resolve {α : Type} (l : Link) (generation : Nat) : Option (Ref α) :=
  match l.raw with
  | 0 => .none
  | offset + 1 => some ⟨⟨offset, generation⟩⟩

def text (l : Link) : String :=
  match l.raw with
  | 0 => "ALink(none)"
  | offset + 1 => s!"ALink(@{offset})"

theorem resolve_none {α : Type} (g : Nat) : (none.resolve g : Option (Ref α)) = .none := rfl

theorem resolve_ofRef? {α : Type} {r : Ref α} (h : r.addr.offset + 1 < wordLimit) :
    (ofRef? (some r)).resolve r.addr.generation = some r := by
  simp [ofRef?, resolve, Nat.mod_eq_of_lt h]

end Link

def Addr.text (a : Addr) : String := s!"BlockAddr(@{a.offset}#{a.generation})"

def Ref.text {α : Type} (r : Ref α) : String := s!"ARef(@{r.addr.offset}#{r.addr.generation})"

def Slice.text {α : Type} (s : Slice α) : String :=
  s!"ASlice(@{s.offset}+{s.length}#{s.generation})"

def Slice.isEmpty {α : Type} (s : Slice α) : Bool := s.length == 0

end ClosureMachine
