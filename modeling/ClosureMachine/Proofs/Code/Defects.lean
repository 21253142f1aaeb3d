import ClosureMachine.Proofs.Code.Validity

/-!
Which defect validation reports. `Flaw c id n m` says declaratively what `m` complains about in the
instruction `n` at position `id`: the first position it names that does not exist; else a parameter
list that is not registered; else the first parameter that repeats an earlier one. The search
through one instruction agrees with it (`nodeDefect?_eq_some_iff`), and the search through the code
stops at the first instruction with a flaw (`defect?_eq_some_iff`). The main statement is
`validation_reports_the_first_defect`.
-/

namespace ClosureMachine

/-- The first repetition ends the longest part without repetitions. -/
theorem firstRepeated?_eq_some_iff {α : Type} [DecidableEq α] (seen xs : List α) (x : α) :
    firstRepeated? seen xs = some x ↔ ∃ before after, xs = before ++ x :: after ∧
      before.Nodup ∧ (∀ y ∈ before, y ∉ seen) ∧ (x ∈ seen ∨ x ∈ before) := by
  induction xs generalizing seen with
  | nil => simp [firstRepeated?]
  | cons y ys ih =>
    rw [firstRepeated?]
    split
    · next hy =>
      constructor
      · rintro ⟨⟩
        exact ⟨[], ys, rfl, .nil, fun _ hz => absurd hz List.not_mem_nil, .inl hy⟩
      · rintro ⟨before, after, heq, -, hfresh, -⟩
        cases before with
        | nil => rw [(List.cons.inj heq).1]
        | cons b before =>
          obtain ⟨rfl, -⟩ := List.cons.inj heq
          exact absurd hy (hfresh y List.mem_cons_self)
    · next hy =>
      rw [ih]
      constructor
      · rintro ⟨before, after, rfl, hnodup, hfresh, hx⟩
        refine ⟨y :: before, after, rfl, ?_, ?_, ?_⟩
        · exact List.nodup_cons.mpr ⟨fun hm => hfresh y hm List.mem_cons_self, hnodup⟩
        · rintro z hz hs
          rcases List.mem_cons.mp hz with rfl | hz
          · exact hy hs
          · exact hfresh z hz (List.mem_cons_of_mem _ hs)
        · simp only [List.mem_cons] at hx ⊢
          grind
      · rintro ⟨before, after, heq, hnodup, hfresh, hx⟩
        cases before with
        | nil =>
          obtain ⟨rfl, -⟩ := List.cons.inj heq
          exact absurd hx (by simpa using hy)
        | cons b before =>
          obtain ⟨rfl, rfl⟩ := List.cons.inj heq
          obtain ⟨hb, hnodup⟩ := List.nodup_cons.mp hnodup
          refine ⟨before, after, rfl, hnodup, ?_, ?_⟩
          · intro z hz hs
            rcases List.mem_cons.mp hs with rfl | hs
            · exact hb hz
            · exact hfresh z (List.mem_cons_of_mem _ hz) hs
          · simp only [List.mem_cons] at hx ⊢
            grind

namespace Code

/-- What is wrong with the instruction `n` at position `id`, if anything is: the first flaw in the
order in which they are looked for. -/
inductive Flaw (c : Code) (id : NodeId) (n : Node) : Malformation → Prop
  /-- A position that does not exist, where those named before it do. -/
  | target {before after : List NodeId} {t : NodeId} : n.successors = before ++ t :: after →
    (∀ s ∈ before, s < c.size) → c.size ≤ t → Flaw c id n (.missingTarget id n.opcode t)
  /-- A parameter list that is not registered; all positions exist. -/
  | formals {f : FormalsId} {body next : NodeId} : (∀ t ∈ n.successors, t < c.size) →
    n = .close f body next → c.formals? f = none → Flaw c id n (.missingFormals id f)
  /-- A parameter that is one of those before it, which are all different. -/
  | parameter {f : FormalsId} {body next : NodeId} {before after : List SymbolId} {x : SymbolId} :
    (∀ t ∈ n.successors, t < c.size) → n = .close f body next →
    c.formals? f = some (before ++ x :: after) → before.Nodup → x ∈ before →
    Flaw c id n (.repeatedFormal id x)

theorem missingTarget?_eq_some_iff (c : Code) (n : Node) (t : NodeId) :
    c.missingTarget? n = some t ↔ ∃ before after, n.successors = before ++ t :: after ∧
      (∀ s ∈ before, s < c.size) ∧ c.size ≤ t := by
  rw [missingTarget?, List.find?_eq_some_iff_append]
  constructor
  · rintro ⟨ht, before, after, heq, hb⟩
    exact ⟨before, after, heq, fun s hs => by simpa using hb s hs, by simpa using ht⟩
  · rintro ⟨before, after, heq, hb, ht⟩
    exact ⟨by simpa using ht, before, after, heq, fun s hs => by simpa using hb s hs⟩

theorem missingTarget?_eq_none_iff (c : Code) (n : Node) :
    c.missingTarget? n = none ↔ ∀ t ∈ n.successors, t < c.size := by
  simp [missingTarget?, List.find?_eq_none]

/-- The two searches in a parameter list. -/
theorem formalsDefect?_eq_some_iff (c : Code) (id : NodeId) (n : Node) (m : Malformation) :
    c.formalsDefect? id n = some m ↔ ∃ f body next, n = .close f body next ∧
      (c.formals? f = none ∧ m = .missingFormals id f ∨
        ∃ before after x, c.formals? f = some (before ++ x :: after) ∧ before.Nodup ∧
          x ∈ before ∧ m = .repeatedFormal id x) := by
  cases n with
  | close f body next =>
    cases hf : c.formals? f with
    | none => simp [formalsDefect?, hf, eq_comm]
    | some names =>
      simp only [formalsDefect?, hf, Option.map_eq_some_iff, firstRepeated?_eq_some_iff]
      constructor
      · rintro ⟨x, ⟨before, after, rfl, hnodup, -, hx⟩, rfl⟩
        exact ⟨f, body, next, rfl, .inr ⟨before, after, x, hf, hnodup, by simpa using hx, rfl⟩⟩
      · rintro ⟨f', body', next', heq, ⟨hnone, -⟩ | ⟨before, after, x, hsome, hnodup, hx, rfl⟩⟩
        · cases heq
          rw [hf] at hnone
          cases hnone
        · cases heq
          rw [hf] at hsome
          cases hsome
          exact ⟨x, ⟨before, after, rfl, hnodup, fun _ _ => List.not_mem_nil, .inr hx⟩, rfl⟩
  | _ => simp [formalsDefect?]

/-- The search through one instruction finds its flaw. -/
theorem nodeDefect?_eq_some_iff (c : Code) (id : NodeId) (n : Node) (m : Malformation) :
    c.nodeDefect? id n = some m ↔ c.Flaw id n m := by
  rw [nodeDefect?]
  cases hfirst : c.missingTarget? n with
  | some t =>
    obtain ⟨before, after, heq, hb, hlt⟩ := (c.missingTarget?_eq_some_iff n t).mp hfirst
    have hdangling : ¬ ∀ s ∈ n.successors, s < c.size :=
      fun h => Nat.not_lt.mpr hlt (h t (by simp [heq]))
    constructor
    · rintro ⟨⟩
      exact .target heq hb hlt
    · intro hflaw
      cases hflaw with
      | target heq' hb' hlt' =>
        have hfirst' := (c.missingTarget?_eq_some_iff n _).mpr ⟨_, _, heq', hb', hlt'⟩
        rw [hfirst] at hfirst'
        cases hfirst'
        rfl
      | formals htargets _ _ => exact absurd htargets hdangling
      | parameter htargets _ _ _ _ => exact absurd htargets hdangling
  | none =>
    have htargets := (c.missingTarget?_eq_none_iff n).mp hfirst
    rw [formalsDefect?_eq_some_iff]
    constructor
    · rintro ⟨f, body, next, hn, ⟨hf, rfl⟩ | ⟨before, after, x, hf, hnodup, hx, rfl⟩⟩
      · exact .formals htargets hn hf
      · exact .parameter htargets hn hf hnodup hx
    · intro hflaw
      cases hflaw with
      | @target before after t heq _ hlt =>
        exact absurd (htargets t (by simp [heq])) (Nat.not_lt.mpr hlt)
      | formals _ hn hf => exact ⟨_, _, _, hn, .inl ⟨hf, rfl⟩⟩
      | parameter _ hn hf hnodup hx => exact ⟨_, _, _, hn, .inr ⟨_, _, _, hf, hnodup, hx, rfl⟩⟩

/-- A complaint begins with the position and the kind of the instruction. -/
theorem Flaw.message {c : Code} {id : NodeId} {n : Node} {m : Malformation} (h : c.Flaw id n m) :
    ∃ rest, m.message = nodeLabel id ++ " (" ++ n.opcode.name ++ ")" ++ rest := by
  cases h with
  | @target _ _ t _ _ _ =>
    refine ⟨" targets missing node " ++ nodeLabel t, ?_⟩
    change nodeLabel id ++ " (" ++ n.opcode.name ++ ") targets missing node " ++ nodeLabel t = _
    have hwords : ") targets missing node " = ")" ++ " targets missing node " := by decide
    rw [hwords]
    simp only [String.append_assoc]
  | @formals f _ _ _ hn _ =>
    refine ⟨" uses unknown formals list " ++ toString f, ?_⟩
    change nodeLabel id ++ " (close) uses unknown formals list " ++ toString f = _
    have hwords : " (close) uses unknown formals list " =
      " (" ++ "close" ++ ")" ++ " uses unknown formals list " := by decide
    rw [hwords, hn]
    simp only [Node.opcode, Opcode.name, String.append_assoc]
  | @parameter _ _ _ _ _ x _ hn _ _ _ =>
    refine ⟨" binds " ++ symbolLabel x ++ " twice", ?_⟩
    change nodeLabel id ++ " (close) binds " ++ symbolLabel x ++ " twice" = _
    have hwords : " (close) binds " = " (" ++ "close" ++ ")" ++ " binds " := by decide
    rw [hwords, hn]
    simp only [Node.opcode, Opcode.name, String.append_assoc]

/-- An instruction with a flaw cannot be carried. -/
theorem Flaw.not_carries {c : Code} {id : NodeId} {n : Node} {m : Malformation}
    (h : c.Flaw id n m) : ¬ c.Carries n := by
  intro hcarries
  have hnone := (c.nodeDefect?_eq_none_iff id n).mpr hcarries
  rw [(c.nodeDefect?_eq_some_iff id n m).mpr h] at hnone
  cases hnone

/-- The instruction at `id` has the flaw `m`, and those before it have none. -/
structure FirstFlaw (c : Code) (id : NodeId) (n : Node) (m : Malformation) : Prop where
  node : c.node? id = some n
  before : ∀ j n', j < id → c.node? j = some n' → c.Carries n'
  flaw : c.Flaw id n m

theorem FirstFlaw.of_defect? {c : Code} (hsize : c.size < wordLimit) {m : Malformation}
    (h : c.defect? = some m) : ∃ id n, c.FirstFlaw id n m := by
  obtain ⟨front, ⟨i, n⟩, back, hsplit, hdefect, hfront⟩ := List.findSome?_eq_some_iff.mp h
  have hhere : c.toList[front.length]? = some (i, n) := by simp [hsplit]
  rw [getElem?_toList, Option.map_eq_some_iff] at hhere
  obtain ⟨n', hn, heq⟩ := hhere
  obtain ⟨hi, rfl⟩ := Prod.mk.inj heq
  rw [Nat.mod_eq_of_lt (Nat.lt_trans (node?_lt hn) hsize)] at hi
  subst hi
  refine ⟨front.length, n', hn, ?_, (c.nodeDefect?_eq_some_iff _ _ _).mp hdefect⟩
  intro j k hj hk
  have hmem : (j % wordLimit, k) ∈ front := by
    have hget : c.toList[j]? = some (j % wordLimit, k) := by rw [getElem?_toList, hk]; rfl
    rw [hsplit, List.getElem?_append_left hj] at hget
    exact List.mem_of_getElem? hget
  exact (c.nodeDefect?_eq_none_iff _ _).mp (hfront _ hmem)

theorem FirstFlaw.unique {c : Code} {id id' : NodeId} {n n' : Node} {m m' : Malformation}
    (h : c.FirstFlaw id n m) (h' : c.FirstFlaw id' n' m') : id = id' ∧ m = m' := by
  have hid : id = id' := by
    rcases Nat.lt_trichotomy id id' with hlt | heq | hlt
    · exact absurd (h'.before id n hlt h.node) h.flaw.not_carries
    · exact heq
    · exact absurd (h.before id' n' hlt h'.node) h'.flaw.not_carries
  subst hid
  have hn := h.node
  rw [h'.node] at hn
  cases hn
  have hm := (c.nodeDefect?_eq_some_iff _ _ _).mpr h.flaw
  rw [(c.nodeDefect?_eq_some_iff _ _ _).mpr h'.flaw] at hm
  exact ⟨rfl, (Option.some.inj hm).symm⟩

/-- The search through the code finds the flaw of the first instruction that has one. -/
theorem defect?_eq_some_iff {c : Code} (hsize : c.size < wordLimit) (m : Malformation) :
    c.defect? = some m ↔ ∃ id n, c.FirstFlaw id n m := by
  refine ⟨FirstFlaw.of_defect? hsize, ?_⟩
  rintro ⟨id, n, hfirst⟩
  cases hdefect : c.defect? with
  | none =>
    have hvalid := c.defect?_eq_none_iff.mp hdefect
    exact absurd (hvalid id n hfirst.node) hfirst.flaw.not_carries
  | some m' =>
    obtain ⟨id', n', hfirst'⟩ := FirstFlaw.of_defect? hsize hdefect
    rw [(hfirst.unique hfirst').2]

/-- A frame looks at where it goes on before it looks at where it returns to. -/
theorem FirstFlaw.of_frame {c : Code} {id returnTo next : NodeId} {m : Malformation}
    (h : c.FirstFlaw id (.frame returnTo next) m) :
    m = .missingTarget id .frame (if c.size ≤ next then next else returnTo) := by
  have hsuccessors : (Node.frame returnTo next).successors = [next] ++ returnTo :: [] := rfl
  have hflaw : Flaw c id (.frame returnTo next)
      (.missingTarget id .frame (if c.size ≤ next then next else returnTo)) := by
    split
    · next hnext => exact .target (List.nil_append _).symm nofun hnext
    · next hnext =>
      have hnext : next < c.size := Nat.not_le.mp hnext
      refine .target hsuccessors (by simpa using hnext) (Nat.not_lt.mp fun hreturn => ?_)
      exact h.flaw.not_carries ⟨by simp [Node.successors, hnext, hreturn], nofun⟩
  exact (h.unique ⟨h.node, h.before, hflaw⟩).2

/-- Validation passes just the code that can carry all its instructions: every position they name
is one of the code, and every parameter list they close over is registered and free of repetitions.
Of any other code it reports the flaw of the first instruction that has one, in words that begin
with that instruction. -/
theorem validation_reports_the_first_defect {c : Code} (hsize : c.size < wordLimit) :
    (c.defect? = none ↔ ∀ id n, c.node? id = some n →
      (∀ t ∈ n.successors, t < c.size) ∧ ∀ f body next, n = .close f body next →
        ∃ names, c.formals? f = some names ∧ names.Nodup) ∧
    (∀ m, c.defect? = some m ↔ ∃ id n, c.FirstFlaw id n m) ∧
    (∀ id returnTo next m, c.FirstFlaw id (.frame returnTo next) m →
      m = .missingTarget id .frame (if c.size ≤ next then next else returnTo)) ∧
    ∀ id n m, c.FirstFlaw id n m →
      ∃ rest, m.message = nodeLabel id ++ " (" ++ n.opcode.name ++ ")" ++ rest := by
  refine ⟨?_, defect?_eq_some_iff hsize, fun _ _ _ _ h => h.of_frame, fun _ _ _ h => h.flaw.message⟩
  rw [c.defect?_eq_none_iff]
  exact ⟨fun h id n hn => ⟨(h id n hn).targets, (h id n hn).formals⟩,
    fun h id n hn => ⟨(h id n hn).1, (h id n hn).2⟩⟩

/-- A parameter list that repeats two of its names, before a frame of which neither position
exists. -/
def flawedCode : Code where
  nodes := #[.ret, .close 0 0 0, .frame 9 8]
  formals := #[[4, 5, 6, 5, 4]]

/-- Of all this the fourth parameter is reported, which repeats the second. -/
theorem validation_reports_the_first_defect_parameters :
    flawedCode.size < wordLimit ∧ flawedCode.defect? = some (.repeatedFormal 1 5) := by
  have hsize : flawedCode.size < wordLimit := by decide
  refine ⟨hsize, ((validation_reports_the_first_defect hsize).2.1 _).mpr
    ⟨1, .close 0 0 0, rfl, ?_, ?_⟩⟩
  · intro j n hj hn
    obtain rfl := Nat.lt_one_iff.mp hj
    cases hn
    exact ⟨nofun, nofun⟩
  · have hformals : flawedCode.formals? 0 = some ([4, 5, 6] ++ 5 :: [4]) := rfl
    exact .parameter (by decide) rfl hformals (by decide) (by decide)

end Code

end ClosureMachine
