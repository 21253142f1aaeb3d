import ClosureMachine.Proofs.Heap.Cells

/-!
Records and the references between them. A heap is linked from `base` on when every record there
is followed by its values and refers only to earlier records of the right kind, at or after `base`.
Two facts carry everything else:

* a heap that keeps the records of another (`Heap.Keeps`) still has every header, closure and
  continuation of it, and the saved arguments of every call frame, though the values of
  environment frames may have changed;
* storing a linked record and assigning to a slot of an environment frame both keep records and
  leave the heap linked (`Linked.extend`, `Linked.setValue`, `Keeps.setSlot`).
-/

namespace ClosureMachine

namespace Cell

/-- Number of values that follow a header in its run. -/
def tailLength : Cell → Nat
  | environment h => h.length
  | frame h => h.length
  | _ => 0

/-- Anything but a bare value. -/
def isRecord : Cell → Bool
  | value _ => false
  | _ => true

end Cell

namespace Heap

/-- The later heap has every record of the earlier one, and from `base` on the saved arguments of
every call frame. -/
structure Keeps (base : Nat) (heap heap' : Heap) : Prop where
  generation : heap'.generation = heap.generation
  capacity : heap'.capacity = heap.capacity
  record : ∀ o c, heap.cell? o = some c → c.isRecord = true → heap'.cell? o = some c
  value : ∀ o v, heap.cell? o = some (.value v) → ∃ w, heap'.cell? o = some (.value w)
  rib : ∀ o h i v, base ≤ o → heap.cell? o = some (.frame h) → i < h.length →
    heap.cell? (o + 1 + i) = some (.value v) → heap'.cell? (o + 1 + i) = some (.value v)

theorem Keeps.refl (base : Nat) (heap : Heap) : heap.Keeps base heap where
  generation := rfl
  capacity := rfl
  record _ _ h _ := h
  value _ v h := ⟨v, h⟩
  rib _ _ _ _ _ _ _ h := h

theorem Keeps.trans {base : Nat} {heap heap' heap'' : Heap} (h : heap.Keeps base heap')
    (h' : heap'.Keeps base heap'') : heap.Keeps base heap'' where
  generation := h'.generation.trans h.generation
  capacity := h'.capacity.trans h.capacity
  record o c hc hr := h'.record o c (h.record o c hc hr) hr
  value o v hv := by
    obtain ⟨w, hw⟩ := h.value o v hv
    exact h'.value o w hw
  rib o head i v hb ho hi hv :=
    h'.rib o head i v hb (h.record o _ ho rfl) hi (h.rib o head i v hb ho hi hv)

theorem Keeps.mono {base base' : Nat} {heap heap' : Heap} (h : heap.Keeps base heap')
    (hb : base ≤ base') : heap.Keeps base' heap' :=
  { h with rib := fun o head i v ho => h.rib o head i v (Nat.le_trans hb ho) }

theorem Keeps.extend (base : Nat) (heap : Heap) (cells : List Cell) :
    heap.Keeps base (heap.extend cells) where
  generation := rfl
  capacity := rfl
  record _ _ h _ := cell?_extend_old h
  value _ v h := ⟨v, cell?_extend_old h⟩
  rib _ _ _ _ _ _ _ h := cell?_extend_old h

/-! ## References -/

/-- A reference to an environment frame of this generation that lies in `[base, bound)`. -/
structure HoldsEnv (heap : Heap) (base bound : Nat) (r : EnvRef) : Prop where
  generation : r.addr.generation = heap.generation
  base_le : base ≤ r.addr.offset
  lt_bound : r.addr.offset < bound
  stored : ∃ h, heap.cell? r.addr.offset = some (.environment h)

/-- A reference to a call frame of this generation that lies in `[base, bound)`. -/
structure HoldsFrame (heap : Heap) (base bound : Nat) (r : FrameRef) : Prop where
  generation : r.addr.generation = heap.generation
  base_le : base ≤ r.addr.offset
  lt_bound : r.addr.offset < bound
  stored : ∃ h, heap.cell? r.addr.offset = some (.frame h)

section References

variable {heap heap' : Heap} {base bound bound' : Nat}

theorem HoldsEnv.mono {r : EnvRef} (h : heap.HoldsEnv base bound r) (hk : heap.Keeps base heap')
    (hb : bound ≤ bound') : heap'.HoldsEnv base bound' r where
  generation := h.generation.trans hk.generation.symm
  base_le := h.base_le
  lt_bound := Nat.lt_of_lt_of_le h.lt_bound hb
  stored := by
    obtain ⟨head, hc⟩ := h.stored
    exact ⟨head, hk.record _ _ hc rfl⟩

theorem HoldsFrame.mono {r : FrameRef} (h : heap.HoldsFrame base bound r)
    (hk : heap.Keeps base heap') (hb : bound ≤ bound') : heap'.HoldsFrame base bound' r where
  generation := h.generation.trans hk.generation.symm
  base_le := h.base_le
  lt_bound := Nat.lt_of_lt_of_le h.lt_bound hb
  stored := by
    obtain ⟨head, hc⟩ := h.stored
    exact ⟨head, hk.record _ _ hc rfl⟩

end References

/-- What the references inside a cell at offset `o` lead to. -/
def LinkedCell (heap : Heap) (base o : Nat) : Cell → Prop
  | .environment h => ∀ r ∈ h.parent.resolve heap.generation, heap.HoldsEnv base o r
  | .frame h =>
    (∀ r ∈ h.env.resolve heap.generation, heap.HoldsEnv base o r) ∧
      ∀ r ∈ h.link.resolve heap.generation, heap.HoldsFrame base o r
  | .closure c => ∀ r ∈ c.env, heap.HoldsEnv base o r
  | .continuation k => ∀ r ∈ k.stack, heap.HoldsFrame base o r
  | _ => True

theorem LinkedCell.mono {heap heap' : Heap} {base o : Nat} {c : Cell}
    (h : heap.LinkedCell base o c) (hk : heap.Keeps base heap') : heap'.LinkedCell base o c := by
  cases c with
  | environment head =>
    intro r hr
    rw [hk.generation] at hr
    exact (h r hr).mono hk (Nat.le_refl _)
  | frame head =>
    refine ⟨fun r hr => ?_, fun r hr => ?_⟩
    · rw [hk.generation] at hr
      exact (h.1 r hr).mono hk (Nat.le_refl _)
    · rw [hk.generation] at hr
      exact (h.2 r hr).mono hk (Nat.le_refl _)
  | closure c => exact fun r hr => (h r hr).mono hk (Nat.le_refl _)
  | continuation k => exact fun r hr => (h r hr).mono hk (Nat.le_refl _)
  | blank => trivial
  | value v => trivial

/-- Every record from `base` on is complete and refers backwards, and offsets fit in a word. -/
structure Linked (base : Nat) (heap : Heap) : Prop where
  used_le : heap.used ≤ heap.capacity
  capacity_lt : heap.capacity < wordLimit
  tail : ∀ o c, base ≤ o → heap.cell? o = some c → ∀ i, i < c.tailLength →
    ∃ v, heap.cell? (o + 1 + i) = some (.value v)
  link : ∀ o c, base ≤ o → heap.cell? o = some c → heap.LinkedCell base o c

/-- A heap that has nothing at or after `base` is linked from there on. -/
theorem Linked.empty {base : Nat} {heap : Heap} (hu : heap.used ≤ heap.capacity)
    (hc : heap.capacity < wordLimit) (hb : heap.used ≤ base) : heap.Linked base where
  used_le := hu
  capacity_lt := hc
  tail o c ho h := absurd (cell?_lt h) (by omega)
  link o c ho h := absurd (cell?_lt h) (by omega)

/-- A heap that nothing has been stored in. -/
theorem Linked.of_unused {heap : Heap} (hr : heap.region = #[]) (hc : heap.capacity < wordLimit) :
    heap.Linked 0 := by
  have hused : heap.used = 0 := by simp [Arena.used, hr]
  exact .empty (by omega) hc (by omega)

/-! ## Storing a record -/

section Store

variable {heap : Heap} {base : Nat} {c : Cell} {vs : List Value}

theorem cell?_store_head (heap : Heap) (c : Cell) (vs : List Value) :
    (heap.extend (c :: vs.map .value)).cell? heap.used = some c := by
  have := cell?_extend_new heap (c :: vs.map .value) 0
  simpa using this

theorem holdsValues_store (heap : Heap) (c : Cell) (vs : List Value) :
    (heap.extend (c :: vs.map .value)).HoldsValues (heap.used + 1) vs := by
  intro i v hi
  have := cell?_extend_new heap (c :: vs.map .value) (i + 1)
  rw [show heap.used + 1 + i = heap.used + (i + 1) by omega, this]
  simp [hi]

/-- A record whose references are linked may be stored with its values behind it. -/
theorem Linked.extend (h : heap.Linked base)
    (hfit : heap.used + (vs.length + 1) ≤ heap.capacity) (ht : c.tailLength = vs.length)
    (hc : heap.LinkedCell base heap.used c) : (heap.extend (c :: vs.map .value)).Linked base := by
  have hk := Keeps.extend base heap (c :: vs.map .value)
  constructor
  case used_le => simpa using hfit
  case capacity_lt => exact h.capacity_lt
  case tail =>
    intro o c' ho hc' i hi
    rcases cell?_extend_cases hc' with hold | ⟨j, rfl, hj⟩
    · obtain ⟨v, hv⟩ := h.tail o c' ho hold i hi
      exact ⟨v, cell?_extend_old hv⟩
    · cases j with
      | zero =>
        cases hj
        obtain ⟨v, hv⟩ : ∃ v, vs[i]? = some v := ⟨_, List.getElem?_eq_getElem (ht ▸ hi)⟩
        exact ⟨v, holdsValues_store heap c vs i v hv⟩
      | succ j =>
        simp only [List.getElem?_cons_succ, List.getElem?_map, Option.map_eq_some_iff] at hj
        obtain ⟨v, -, rfl⟩ := hj
        exact absurd hi (Nat.not_lt_zero _)
  case link =>
    intro o c' ho hc'
    rcases cell?_extend_cases hc' with hold | ⟨j, rfl, hj⟩
    · exact (h.link o c' ho hold).mono hk
    · cases j with
      | zero =>
        cases hj
        exact hc.mono hk
      | succ j =>
        simp only [List.getElem?_cons_succ, List.getElem?_map, Option.map_eq_some_iff] at hj
        obtain ⟨v, -, rfl⟩ := hj
        trivial

end Store

/-! ## Assigning to a slot -/

section Assign

variable {heap : Heap} {base e i : Nat} {head : EnvHeader}

/-- Runs of different headers do not meet: a header is no value, and tails hold nothing else. -/
theorem Linked.tails_disjoint (h : heap.Linked base) {o o' j j' : Nat} {c c' : Cell}
    (ho : base ≤ o) (ho' : base ≤ o') (hc : heap.cell? o = some c) (hc' : heap.cell? o' = some c')
    (hr : c.isRecord = true) (hr' : c'.isRecord = true) (hne : o ≠ o')
    (hj : j < c.tailLength) (hj' : j' < c'.tailLength) : o + 1 + j ≠ o' + 1 + j' := by
  intro heq
  rcases Nat.lt_or_gt_of_ne hne with hlt | hlt
  · obtain ⟨v, hv⟩ := h.tail o c ho hc (o' - (o + 1)) (by omega)
    rw [show o + 1 + (o' - (o + 1)) = o' by omega, hc'] at hv
    cases hv
    cases hr'
  · obtain ⟨v, hv⟩ := h.tail o' c' ho' hc' (o - (o' + 1)) (by omega)
    rw [show o' + 1 + (o - (o' + 1)) = o by omega, hc] at hv
    cases hv
    cases hr

/-- Assigning to a slot of an environment frame touches no record and no saved argument. -/
theorem Keeps.setSlot (h : heap.Linked base) (he : base ≤ e)
    (hc : heap.cell? e = some (.environment head)) (hi : i < head.length) (v : Value) :
    heap.Keeps base (heap.setValue (e + 1 + i) v) := by
  obtain ⟨w, hw⟩ := h.tail e _ he hc i hi
  constructor
  case generation => rfl
  case capacity => rfl
  case record =>
    intro o c ho hr
    have hne : e + 1 + i ≠ o := by
      rintro rfl
      rw [hw] at ho
      cases ho
      cases hr
    rw [cell?_setValue_ne _ _ _ hne, ho]
  case value =>
    intro o u ho
    by_cases heq : e + 1 + i = o
    · subst heq
      exact ⟨v, cell?_setValue_same _ _ _ (cell?_lt hw)⟩
    · exact ⟨u, by rw [cell?_setValue_ne _ _ _ heq, ho]⟩
  case rib =>
    intro o frame j u ho hf hj hu
    have hne : e ≠ o := by
      rintro rfl
      rw [hc] at hf
      cases hf
    have := h.tails_disjoint he ho hc hf rfl rfl hne hi hj
    rw [cell?_setValue_ne _ _ _ this, hu]

theorem Linked.setValue (h : heap.Linked base) {o : Nat} {w : Value}
    (hw : heap.cell? o = some (.value w)) (v : Value)
    (hk : heap.Keeps base (heap.setValue o v)) : (heap.setValue o v).Linked base := by
  have hcases : ∀ o' c, (heap.setValue o v).cell? o' = some c →
      heap.cell? o' = some c ∨ c = .value v := by
    intro o' c hc
    by_cases heq : o = o'
    · subst heq
      rw [cell?_setValue_same _ _ _ (cell?_lt hw)] at hc
      cases hc
      exact .inr rfl
    · rw [cell?_setValue_ne _ _ _ heq] at hc
      exact .inl hc
  constructor
  case used_le => simpa using h.used_le
  case capacity_lt => exact h.capacity_lt
  case tail =>
    intro o' c ho hc i hi
    rcases hcases o' c hc with hold | rfl
    · obtain ⟨u, hu⟩ := h.tail o' c ho hold i hi
      exact hk.value _ u hu
    · exact absurd hi (Nat.not_lt_zero _)
  case link =>
    intro o' c ho hc
    rcases hcases o' c hc with hold | rfl
    · exact (h.link o' c ho hold).mono hk
    · trivial

end Assign

/-! ## Reading frames back -/

section Load

variable {heap : Heap} {base : Nat}

/-- The values behind a header. -/
theorem Linked.exists_values (h : heap.Linked base) {o : Nat} {c : Cell} (ho : base ≤ o)
    (hc : heap.cell? o = some c) :
    ∃ vs : List Value, vs.length = c.tailLength ∧ heap.HoldsValues (o + 1) vs := by
  have hall : ∀ n, n ≤ c.tailLength →
      ∃ vs : List Value, vs.length = n ∧ heap.HoldsValues (o + 1) vs := by
    intro n
    induction n with
    | zero => exact fun _ => ⟨[], rfl, holdsValues_nil _ _⟩
    | succ n ih =>
      intro hn
      obtain ⟨vs, hl, hh⟩ := ih (by omega)
      obtain ⟨v, hv⟩ := h.tail o c ho hc n (by omega)
      refine ⟨vs ++ [v], by simp [hl], fun i w hi => ?_⟩
      by_cases hlt : i < vs.length
      · rw [List.getElem?_append_left hlt] at hi
        exact hh i w hi
      · have hlen := (List.getElem?_eq_some_iff.mp hi).1
        simp only [List.length_append, List.length_singleton] at hlen
        obtain rfl : i = vs.length := by omega
        rw [List.getElem?_concat_length] at hi
        cases hi
        rw [hl]
        exact hv
  exact hall _ (Nat.le_refl _)

/-- A header and its values lie inside the first `wordLimit - 1` blocks. -/
theorem Linked.run_lt (h : heap.Linked base) {o : Nat} {c : Cell} (ho : base ≤ o)
    (hc : heap.cell? o = some c) : o + 1 + c.tailLength ≤ wordLimit - 1 := by
  have hu := h.used_le
  have hw := h.capacity_lt
  have hlt := cell?_lt hc
  cases hn : c.tailLength with
  | zero => omega
  | succ n =>
    obtain ⟨v, hv⟩ := h.tail o c ho hc n (by omega)
    have := cell?_lt hv
    omega

theorem tail_eq {η : Type} [Storable Cell η] (hb : Storable.blocks Cell η 1 = 1)
    {r : Ref η} {n : Nat} (h : r.addr.offset + 1 + n ≤ wordLimit - 1) :
    r.tail Cell Value n = ⟨r.addr.offset + 1, n, r.addr.generation⟩ := by
  have h1 : min (r.addr.offset + 1) (wordLimit - 1) = r.addr.offset + 1 := by omega
  have h2 : min n (wordLimit - 1) = n := by omega
  simp [Ref.tail, hb, h1, h2]

theorem Linked.load_env (h : heap.Linked base) {r : EnvRef} {head : EnvHeader}
    (hb : base ≤ r.addr.offset) (hg : r.addr.generation = heap.generation)
    (hc : heap.cell? r.addr.offset = some (.environment head)) :
    EnvFrame.load? heap r =
      some ⟨head.names, ⟨r.addr.offset + 1, head.length, heap.generation⟩,
        head.parent.resolve heap.generation⟩ := by
  have hget := (get?_environment_iff heap r head).mpr ⟨hg, hc⟩
  have ht := tail_eq (r := r) rfl (h.run_lt hb hc)
  simp only [Cell.tailLength] at ht
  simp [EnvFrame.load?, hget, ht, hg]

theorem Linked.load_frame (h : heap.Linked base) {r : FrameRef} {head : FrameHeader}
    (hb : base ≤ r.addr.offset) (hg : r.addr.generation = heap.generation)
    (hc : heap.cell? r.addr.offset = some (.frame head)) :
    CallFrame.load? heap r =
      some ⟨head.returnTo, head.env.resolve heap.generation,
        ⟨r.addr.offset + 1, head.length, heap.generation⟩,
        head.link.resolve heap.generation⟩ := by
  have hget := (get?_frame_iff heap r head).mpr ⟨hg, hc⟩
  have ht := tail_eq (r := r) rfl (h.run_lt hb hc)
  simp only [Cell.tailLength] at ht
  simp [CallFrame.load?, hget, ht, hg]

/-- Reading a value behind a header. -/
theorem Linked.slice_getElem (h : heap.Linked base) {o : Nat} {c : Cell} (ho : base ≤ o)
    (hc : heap.cell? o = some c) {i : Nat} (hi : i < c.tailLength) :
    ∃ v, heap.cell? (o + 1 + i) = some (.value v) ∧
      (heap.slice? (⟨o + 1, c.tailLength, heap.generation⟩ : Slice Value)).bind (·[i]?) =
        some v := by
  obtain ⟨vs, hlen, hvs⟩ := h.exists_values ho hc
  have hslice : heap.slice? (⟨o + 1, c.tailLength, heap.generation⟩ : Slice Value) = some vs :=
    (slice?_eq_some_iff rfl vs).mpr ⟨hlen, hvs⟩
  have hget : vs[i]? = some vs[i] := List.getElem?_eq_getElem (by omega)
  exact ⟨vs[i], hvs i _ hget, by rw [hslice]; exact hget⟩

/-- Changing a value behind a header. -/
theorem Linked.setAt_tail (h : heap.Linked base) {o : Nat} {c : Cell} (ho : base ≤ o)
    (hc : heap.cell? o = some c) {i : Nat} (hi : i < c.tailLength) (v : Value) :
    heap.setAt (⟨o + 1, c.tailLength, heap.generation⟩ : Slice Value) i v =
      (.ok (), heap.setValue (o + 1 + i) v) := by
  rcases setAt_eq heap ⟨o + 1, c.tailLength, heap.generation⟩ i v with ⟨heq, -⟩ | ⟨-, hn⟩
  · exact heq
  · obtain ⟨w, hw⟩ := h.tail o c ho hc (c.tailLength - 1) (by omega)
    have hlt := cell?_lt hw
    exact absurd ⟨hi, rfl, by simp only; omega⟩ hn

theorem load_frame_eq_none {r : FrameRef}
    (h : ¬ (r.addr.generation = heap.generation ∧
      ∃ head, heap.cell? r.addr.offset = some (.frame head))) :
    CallFrame.load? heap r = none := by
  have hget : heap.get? r = none := by
    cases hr : heap.get? r with
    | none => rfl
    | some head =>
      obtain ⟨hg, hc⟩ := (get?_frame_iff heap r head).mp hr
      exact absurd ⟨hg, head, hc⟩ h
  simp [CallFrame.load?, hget]

/-- Links that are stored lead back to what was linked. -/
theorem Linked.resolve_env (h : heap.Linked base) {env : Option EnvRef}
    (he : ∀ r ∈ env, heap.HoldsEnv base heap.used r) :
    (Link.ofRef? env).resolve heap.generation = env := by
  cases env with
  | none => rfl
  | some r =>
    have hr := he r rfl
    have hu := h.used_le
    have hw := h.capacity_lt
    have hlt := hr.lt_bound
    rw [← hr.generation]
    exact Link.resolve_ofRef? (by omega)

theorem Linked.resolve_frame (h : heap.Linked base) {link : Option FrameRef}
    (hl : ∀ r ∈ link, heap.HoldsFrame base heap.used r) :
    (Link.ofRef? link).resolve heap.generation = link := by
  cases link with
  | none => rfl
  | some r =>
    have hr := hl r rfl
    have hu := h.used_le
    have hw := h.capacity_lt
    have hlt := hr.lt_bound
    rw [← hr.generation]
    exact Link.resolve_ofRef? (by omega)

theorem Linked.closure_env (h : heap.Linked base) {r : Ref Closure} {c : Closure}
    (hc : heap.get? r = some c) (hr : base ≤ r.addr.offset) :
    ∀ r' ∈ c.env, heap.HoldsEnv base heap.used r' := by
  obtain ⟨-, hcell⟩ := (get?_closure_iff _ _ _).mp hc
  intro r' hr'
  exact (h.link _ _ hr hcell r' hr').mono (.refl _ _) (Nat.le_of_lt (cell?_lt hcell))

/-- The saved arguments of a frame are kept. -/
theorem Keeps.holdsValues_rib {heap' : Heap} (hk : heap.Keeps base heap') {o : Nat}
    {head : FrameHeader} {rib : List Value} (ho : base ≤ o)
    (hc : heap.cell? o = some (.frame head)) (hl : rib.length = head.length)
    (hr : heap.HoldsValues (o + 1) rib) : heap'.HoldsValues (o + 1) rib := by
  intro i v hi
  have hlt := (List.getElem?_eq_some_iff.mp hi).1
  exact hk.rib o head i v ho hc (hl ▸ hlt) (hr i v hi)

theorem Keeps.get?_closure {heap' : Heap} (hk : heap.Keeps base heap') {r : Ref Closure}
    {c : Closure} (h : heap.get? r = some c) : heap'.get? r = some c := by
  obtain ⟨hg, hc⟩ := (get?_closure_iff _ _ _).mp h
  exact (get?_closure_iff _ _ _).mpr ⟨hg.trans hk.generation.symm, hk.record _ _ hc rfl⟩

theorem Keeps.get?_continuation {heap' : Heap} (hk : heap.Keeps base heap') {r : Ref Continuation}
    {k : Continuation} (h : heap.get? r = some k) : heap'.get? r = some k := by
  obtain ⟨hg, hc⟩ := (get?_continuation_iff _ _ _).mp h
  exact (get?_continuation_iff _ _ _).mpr ⟨hg.trans hk.generation.symm, hk.record _ _ hc rfl⟩

end Load

/-! ## Lack of room -/

/-- The error says truly that there is less room than was asked for. -/
def Lacks (heap : Heap) : ArenaError → Prop
  | .outOfMemory requested available capacity =>
    available = heap.remaining ∧ capacity = heap.capacity ∧ available < requested
  | _ => False

theorem lacks_one {heap : Heap} (h : heap.remaining < 1) :
    heap.Lacks (.outOfMemory 1 heap.remaining heap.capacity) := ⟨rfl, rfl, h⟩

theorem Linked.lacks_requested {base : Nat} {heap : Heap} (hl : heap.Linked base) {n : Nat}
    (h : heap.remaining < n + 1) :
    heap.Lacks (.outOfMemory (requested n) heap.remaining heap.capacity) := by
  refine ⟨rfl, rfl, ?_⟩
  have hw := hl.capacity_lt
  have hle : heap.remaining ≤ heap.capacity := Nat.sub_le _ _
  unfold requested
  split
  · simp only [wordLimit, longLimit] at *
    omega
  · omega

end Heap

end ClosureMachine
