import ClosureMachine.Machine.Error

/-!
Validation: every instruction leads to instructions of the same code, and every parameter list in
use is registered and free of repetitions. The first defect is reported, in the order of the
instructions; within one, missing targets come first, then the parameter list.
-/

namespace ClosureMachine

/-- The first element that also occurs before it, where `seen` occurs before all. -/
def firstRepeated? {α : Type} [DecidableEq α] (seen : List α) : List α → Option α
  | [] => none
  | x :: xs => if x ∈ seen then some x else firstRepeated? (x :: seen) xs

theorem firstRepeated?_eq_none_iff {α : Type} [DecidableEq α] (seen xs : List α) :
    firstRepeated? seen xs = none ↔ xs.Nodup ∧ ∀ x ∈ xs, x ∉ seen := by
  induction xs generalizing seen with
  | nil => simp [firstRepeated?]
  | cons x xs ih =>
    by_cases h : x ∈ seen
    · simp [firstRepeated?, h]
    · simp only [firstRepeated?, h, ↓reduceIte, ih, List.nodup_cons, List.mem_cons, not_or]
      constructor
      · rintro ⟨hn, hx⟩
        refine ⟨⟨fun hm => (hx x hm).1 rfl, hn⟩, ?_⟩
        rintro y (rfl | hy)
        · exact h
        · exact (hx y hy).2
      · rintro ⟨⟨hx, hn⟩, hs⟩
        exact ⟨hn, fun y hy => ⟨fun e => hx (e ▸ hy), hs y (.inr hy)⟩⟩

namespace Code

/-- The first position that an instruction names and that does not exist. -/
def missingTarget? (c : Code) (n : Node) : Option NodeId :=
  n.successors.find? fun t => c.size ≤ t

def formalsDefect? (c : Code) (id : NodeId) : Node → Option Malformation
  | .close f _ _ =>
    match c.formals? f with
    | none => some (.missingFormals id f)
    | some names => (firstRepeated? [] names).map (.repeatedFormal id)
  | _ => none

def nodeDefect? (c : Code) (id : NodeId) (n : Node) : Option Malformation :=
  match c.missingTarget? n with
  | some t => some (.missingTarget id n.opcode t)
  | none => c.formalsDefect? id n

def defect? (c : Code) : Option Malformation := c.toList.findSome? fun (id, n) => c.nodeDefect? id n

end Code

end ClosureMachine
