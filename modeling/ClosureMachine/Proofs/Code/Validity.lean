import ClosureMachine.Code.Validation
import ClosureMachine.Proofs.Code.Growth

/-!
What validation checks, as a property: code without a defect leads only to instructions of its own,
and the parameter lists it closes over are registered and free of repetitions
(`defect?_eq_none_iff`).
-/

namespace ClosureMachine

namespace Code

/-- An instruction that the code can carry. -/
structure Carries (c : Code) (n : Node) : Prop where
  targets : ∀ t ∈ n.successors, t < c.size
  formals : ∀ f body next, n = .close f body next →
    ∃ names, c.formals? f = some names ∧ names.Nodup

theorem nodeDefect?_eq_none_iff (c : Code) (id : NodeId) (n : Node) :
    c.nodeDefect? id n = none ↔ c.Carries n := by
  have htargets : c.missingTarget? n = none ↔ ∀ t ∈ n.successors, t < c.size := by
    simp [missingTarget?, List.find?_eq_none]
  have hformals : c.formalsDefect? id n = none ↔ ∀ f body next, n = .close f body next →
      ∃ names, c.formals? f = some names ∧ names.Nodup := by
    cases n with
    | close f body next =>
      cases hf : c.formals? f with
      | none => simp [formalsDefect?, hf]
      | some names => simp [formalsDefect?, hf, firstRepeated?_eq_none_iff]
    | _ => simp [formalsDefect?]
  cases ht : c.missingTarget? n with
  | none =>
    simp only [nodeDefect?, ht, hformals]
    exact ⟨fun h => ⟨htargets.mp ht, h⟩, fun h => h.formals⟩
  | some t =>
    simp only [nodeDefect?, ht, reduceCtorEq, false_iff]
    intro h
    rw [htargets.mpr h.targets] at ht
    cases ht

/-- Code that can carry all its instructions. -/
def Valid (c : Code) : Prop := ∀ id n, c.node? id = some n → c.Carries n

theorem defect?_eq_none_iff (c : Code) : c.defect? = none ↔ c.Valid := by
  simp only [Valid, defect?, toList, List.findSome?_eq_none_iff, List.mem_map, Prod.exists,
    forall_exists_index, and_imp, nodeDefect?_eq_none_iff]
  constructor
  · intro h id n hn
    refine h (id % wordLimit, n) n id ?_ rfl
    rw [List.mk_mem_zipIdx_iff_getElem?, Array.getElem?_toList]
    exact hn
  · rintro h _ n id hm rfl
    rw [List.mk_mem_zipIdx_iff_getElem?, Array.getElem?_toList] at hm
    exact h id n hm

theorem Carries.mono {c c' : Code} (hg : c.Grows c') {n : Node} (h : c.Carries n) :
    c'.Carries n where
  targets t ht := Nat.lt_of_lt_of_le (h.targets t ht) hg.size_le
  formals f body next hn := by
    obtain ⟨names, hf, hnodup⟩ := h.formals f body next hn
    exact ⟨names, hg.formals? hf, hnodup⟩

/-- Code that grows by one instruction stays valid if it can carry that one. -/
theorem Valid.push {c c' : Code} (h : c.Valid) (hg : c.Grows c') {n : Node}
    (hnodes : c'.nodes = c.nodes.push n) (hn : c'.Carries n) : c'.Valid := by
  intro id n' hid
  rw [node?, hnodes, Array.getElem?_push] at hid
  split at hid
  · cases hid
    exact hn
  · exact (h id n' hid).mono hg

end Code

end ClosureMachine
