import ClosureMachine.Code.Validation

/-!
Code only grows. `Grows c c'` says that the instructions and the parameter lists of `c` are the
first ones of `c'`, so an id that means something in `c` means the same in `c'`.
-/

namespace ClosureMachine

namespace Code

structure Grows (c c' : Code) : Prop where
  nodes : c.nodes.toList <+: c'.nodes.toList
  formals : c.formals.toList <+: c'.formals.toList

theorem Grows.refl (c : Code) : c.Grows c := ⟨List.prefix_refl _, List.prefix_refl _⟩

theorem Grows.trans {c c' c'' : Code} (h : c.Grows c') (h' : c'.Grows c'') : c.Grows c'' :=
  ⟨h.nodes.trans h'.nodes, h.formals.trans h'.formals⟩

theorem Grows.size_le {c c' : Code} (h : c.Grows c') : c.size ≤ c'.size := by
  simpa [size] using h.nodes.length_le

private theorem getElem?_of_prefix {α : Type} {xs ys : Array α} (h : xs.toList <+: ys.toList)
    {i : Nat} {x : α} (hi : xs[i]? = some x) : ys[i]? = some x := by
  obtain ⟨rest, hrest⟩ := h
  rw [← Array.getElem?_toList] at hi ⊢
  rw [← hrest, List.getElem?_append_left (List.getElem?_eq_some_iff.mp hi).1, hi]

theorem Grows.node? {c c' : Code} (h : c.Grows c') {id : NodeId} {n : Node}
    (hn : c.node? id = some n) : c'.node? id = some n := getElem?_of_prefix h.nodes hn

theorem Grows.formals? {c c' : Code} (h : c.Grows c') {id : FormalsId} {names : List SymbolId}
    (hn : c.formals? id = some names) : c'.formals? id = some names :=
  getElem?_of_prefix h.formals hn

theorem grows_append (c : Code) (n : Node) : c.Grows (c.append n).2 :=
  ⟨by simp [append], List.prefix_refl _⟩

theorem grows_addClose (c : Code) (names : List SymbolId) (body next : NodeId) :
    c.Grows (c.addClose names body next).2 :=
  ⟨by simp [addClose, addFormals, append], by simp [addClose, addFormals, append]⟩

theorem node?_lt {c : Code} {id : NodeId} {n : Node} (h : c.node? id = some n) : id < c.size :=
  (Array.getElem?_eq_some_iff.mp h).1

theorem exists_node_of_lt {c : Code} {id : NodeId} (h : id < c.size) :
    ∃ n, c.node? id = some n := ⟨_, Array.getElem?_eq_getElem h⟩

theorem getElem?_toList (c : Code) (i : Nat) :
    c.toList[i]? = (c.node? i).map fun n => (i % wordLimit, n) := by
  simp [toList, node?, List.getElem?_map, List.getElem?_zipIdx, Function.comp_def]

/-- The id of an added instruction is its position, as long as ids fit in a word. -/
theorem append_fst {c : Code} (h : c.size < wordLimit) (n : Node) : (c.append n).1 = c.size :=
  Nat.mod_eq_of_lt h

theorem node?_append_new (c : Code) (n : Node) : (c.append n).2.node? c.size = some n :=
  Array.getElem?_push_size

@[simp] theorem size_append (c : Code) (n : Node) : (c.append n).2.size = c.size + 1 :=
  Array.size_push _

@[simp] theorem size_addClose (c : Code) (names : List SymbolId) (body next : NodeId) :
    (c.addClose names body next).2.size = c.size + 1 := Array.size_push _

end Code

end ClosureMachine
