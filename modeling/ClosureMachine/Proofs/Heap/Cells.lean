import ClosureMachine.CallStack
import ClosureMachine.Environment

/-!
The heap cell by cell. Storing a record extends the region by the record's cells, assigning a
variable replaces one value cell, and nothing else ever changes the heap. The equations below say
so for each operation of the machine, and reading is described through `Heap.cell?` alone:

* `get?_closure_iff`, `get?_continuation_iff`, `get?_environment_iff`, `get?_frame_iff`;
* `alloc_closure_eq`, `alloc_continuation_eq`, `push_eq`, `bind_eq`: the request fits and the
  record's cells are appended, or nothing changes;
* `setAt_eq`: one cell of a live slice is replaced.
-/

namespace ClosureMachine

namespace Heap

/-- The contents of one block, if it is in use. -/
def cell? (heap : Heap) (o : Nat) : Option Cell := heap.region[o]?

/-- The heap with further cells at its end. -/
def extend (heap : Heap) (cells : List Cell) : Heap :=
  { heap with
    highWater := max heap.highWater (heap.used + cells.length)
    region := heap.region ++ cells.toArray }

/-- The heap with another value in one cell. -/
def setValue (heap : Heap) (o : Nat) (v : Value) : Heap :=
  { heap with region := heap.region.setIfInBounds o (.value v) }

theorem cell?_lt {heap : Heap} {o : Nat} {c : Cell} (h : heap.cell? o = some c) :
    o < heap.used := by
  obtain ⟨hlt, -⟩ := Array.getElem?_eq_some_iff.mp h
  exact hlt

theorem exists_cell_of_lt {heap : Heap} {o : Nat} (h : o < heap.used) :
    ∃ c, heap.cell? o = some c := ⟨_, Array.getElem?_eq_getElem h⟩

/-! ## Extension -/

section Extend

variable (heap : Heap) (cells : List Cell)

@[simp] theorem extend_generation : (heap.extend cells).generation = heap.generation := rfl

@[simp] theorem extend_capacity : (heap.extend cells).capacity = heap.capacity := rfl

@[simp] theorem extend_used : (heap.extend cells).used = heap.used + cells.length := by
  simp [extend, Arena.used]

theorem cell?_extend (o : Nat) :
    (heap.extend cells).cell? o =
      if o < heap.used then heap.cell? o else cells[o - heap.used]? := by
  simp only [extend, cell?, Array.getElem?_append, List.getElem?_toArray]
  rfl

theorem cell?_extend_new (i : Nat) : (heap.extend cells).cell? (heap.used + i) = cells[i]? := by
  rw [cell?_extend, if_neg (by omega), Nat.add_sub_cancel_left]

variable {heap cells}

theorem cell?_extend_old {o : Nat} {c : Cell} (h : heap.cell? o = some c) :
    (heap.extend cells).cell? o = some c := by
  rw [cell?_extend, if_pos (cell?_lt h), h]

theorem cell?_extend_cases {o : Nat} {c : Cell} (h : (heap.extend cells).cell? o = some c) :
    heap.cell? o = some c ∨ ∃ i, o = heap.used + i ∧ cells[i]? = some c := by
  rw [cell?_extend] at h
  split at h
  · exact .inl h
  · exact .inr ⟨o - heap.used, by omega, h⟩

end Extend

/-! ## Replacing a value -/

section SetValue

variable (heap : Heap) (o : Nat) (v : Value)

@[simp] theorem setValue_generation : (heap.setValue o v).generation = heap.generation := rfl

@[simp] theorem setValue_capacity : (heap.setValue o v).capacity = heap.capacity := rfl

@[simp] theorem setValue_used : (heap.setValue o v).used = heap.used := by
  simp [setValue, Arena.used]

theorem cell?_setValue_same (h : o < heap.used) :
    (heap.setValue o v).cell? o = some (.value v) :=
  Array.getElem?_setIfInBounds_self_of_lt h

theorem cell?_setValue_ne {o' : Nat} (h : o ≠ o') : (heap.setValue o v).cell? o' = heap.cell? o' :=
  Array.getElem?_setIfInBounds_ne h

end SetValue

/-! ## Reading records -/

private theorem blocks_storable {α : Type} (inject : α → Cell) (project : Cell → Option α) :
    @Storable.blocks Cell α (Cell.storable inject project) 1 = 1 := by
  change blocksFor (1 * 16) = 1
  decide

/-- Reading a record looks at its cell and at the generation, nothing else. -/
theorem get?_storable {α : Type} (inject : α → Cell) (project : Cell → Option α) (heap : Heap)
    (r : Ref α) :
    @Arena.get? Cell α (Cell.storable inject project) heap r =
      if r.addr.generation = heap.generation then (heap.cell? r.addr.offset).bind project
      else none := by
  simp only [Arena.get?, Arena.isLive, blocks_storable, Bool.and_eq_true, beq_iff_eq, decide_eq_true_eq]
  by_cases hg : r.addr.generation = heap.generation
  · by_cases hu : r.addr.offset + 1 ≤ heap.used
    · simp [hg, hu, Storable.read, cell?]
    · have hn : heap.cell? r.addr.offset = none :=
        Array.getElem?_eq_none (by simp only [Arena.used] at hu; omega)
      simp [hg, hu, hn]
  · simp [hg]

private theorem get?_storable_iff {α : Type} {inject : α → Cell} {project : Cell → Option α}
    (hp : ∀ c x, project c = some x ↔ c = inject x) (heap : Heap) (r : Ref α) (x : α) :
    @Arena.get? Cell α (Cell.storable inject project) heap r = some x ↔
      r.addr.generation = heap.generation ∧ heap.cell? r.addr.offset = some (inject x) := by
  rw [get?_storable]
  split
  · next hg => simp [hg, Option.bind_eq_some_iff, hp]
  · next hg => simp [hg]

theorem get?_closure_iff (heap : Heap) (r : Ref Closure) (c : Closure) :
    heap.get? r = some c ↔
      r.addr.generation = heap.generation ∧ heap.cell? r.addr.offset = some (.closure c) :=
  get?_storable_iff (fun c x => by cases c <;> simp [Cell.closure?]) heap r c

theorem get?_continuation_iff (heap : Heap) (r : Ref Continuation) (k : Continuation) :
    heap.get? r = some k ↔
      r.addr.generation = heap.generation ∧ heap.cell? r.addr.offset = some (.continuation k) :=
  get?_storable_iff (fun c x => by cases c <;> simp [Cell.continuation?]) heap r k

theorem get?_environment_iff (heap : Heap) (r : EnvRef) (h : EnvHeader) :
    heap.get? r = some h ↔
      r.addr.generation = heap.generation ∧ heap.cell? r.addr.offset = some (.environment h) :=
  get?_storable_iff (fun c x => by cases c <;> simp [Cell.environment?]) heap r h

theorem get?_frame_iff (heap : Heap) (r : FrameRef) (h : FrameHeader) :
    heap.get? r = some h ↔
      r.addr.generation = heap.generation ∧ heap.cell? r.addr.offset = some (.frame h) :=
  get?_storable_iff (fun c x => by cases c <;> simp [Cell.frame?]) heap r h

/-! ## Reading runs of values -/

/-- The cells from `base` on hold the values of `vs`. -/
def HoldsValues (heap : Heap) (base : Nat) (vs : List Value) : Prop :=
  ∀ i v, vs[i]? = some v → heap.cell? (base + i) = some (.value v)

theorem holdsValues_nil (heap : Heap) (base : Nat) : heap.HoldsValues base [] := by
  intro i v h
  simp at h

theorem holdsValues_cons (heap : Heap) (base : Nat) (v : Value) (vs : List Value) :
    heap.HoldsValues base (v :: vs) ↔
      heap.cell? base = some (.value v) ∧ heap.HoldsValues (base + 1) vs := by
  constructor
  · intro h
    refine ⟨h 0 v rfl, fun i w hi => ?_⟩
    rw [show base + 1 + i = base + (i + 1) by omega]
    exact h (i + 1) w hi
  · rintro ⟨h0, h1⟩ i w hi
    cases i with
    | zero =>
      cases hi
      exact h0
    | succ i =>
      rw [show base + (i + 1) = base + 1 + i by omega]
      exact h1 i w hi

theorem holdsValues_lt {heap : Heap} {base : Nat} {vs : List Value} (h : heap.HoldsValues base vs)
    (hne : vs ≠ []) : base + vs.length ≤ heap.used := by
  have hpos : 0 < vs.length := List.length_pos_iff.mpr hne
  have hlast : vs.length - 1 < vs.length := by omega
  have := cell?_lt (h (vs.length - 1) _ (List.getElem?_eq_getElem hlast))
  omega

private theorem mapM_read_eq_some (heap : Heap) (base k n : Nat) (vs : List Value) :
    (List.range' k n).mapM (Storable.read heap.region base) = some vs ↔
      vs.length = n ∧ heap.HoldsValues (base + k) vs := by
  induction n generalizing k vs with
  | zero =>
    simp only [List.range'_zero, List.mapM_nil, Option.pure_def, Option.some.injEq]
    constructor
    · rintro rfl
      exact ⟨rfl, holdsValues_nil _ _⟩
    · rintro ⟨hl, -⟩
      exact (List.eq_nil_of_length_eq_zero hl).symm
  | succ n ih =>
    have hread : ∀ v, (Storable.read heap.region base k : Option Value) = some v ↔
        heap.cell? (base + k) = some (.value v) := by
      intro v
      simp only [Storable.read, cell?, Option.bind_eq_some_iff]
      constructor
      · rintro ⟨c, hc, hv⟩
        cases c <;> simp_all [Cell.value?]
      · intro h
        exact ⟨_, h, rfl⟩
    simp only [List.range'_succ, List.mapM_cons, Option.pure_def, Option.bind_eq_bind,
      Option.bind_eq_some_iff, Option.some.injEq]
    constructor
    · rintro ⟨v, hv, ws, hws, rfl⟩
      obtain ⟨hl, hh⟩ := (ih (k + 1) ws).mp hws
      exact ⟨by simp [hl], (holdsValues_cons _ _ _ _).mpr ⟨(hread v).mp hv, hh⟩⟩
    · rintro ⟨hl, hh⟩
      cases vs with
      | nil => simp at hl
      | cons v ws =>
        obtain ⟨h0, h1⟩ := (holdsValues_cons _ _ _ _).mp hh
        exact ⟨v, (hread v).mpr h0, ws, (ih (k + 1) ws).mpr ⟨by simpa using hl, h1⟩, rfl⟩

theorem readFirst_eq_some_iff (heap : Heap) (base n : Nat) (vs : List Value) :
    Storable.readFirst heap.region base n = some vs ↔
      vs.length = n ∧ heap.HoldsValues base vs := by
  rw [Storable.readFirst, List.range_eq_range']
  exact mapM_read_eq_some heap base 0 n vs

theorem blocks_value (n : Nat) : Storable.blocks Cell Value n = n := by
  change blocksFor (n * 16) = n
  simp only [blocksFor, blockSize]
  omega

theorem isLiveSlice_iff (heap : Heap) (s : Slice Value) :
    heap.isLiveSlice s = true ↔
      s.generation = heap.generation ∧ s.offset + s.length ≤ heap.used := by
  simp [Arena.isLiveSlice, Arena.isLive, blocks_value]

/-- A slice of the current generation reads as the values that its cells hold. -/
theorem slice?_eq_some_iff {heap : Heap} {s : Slice Value} (hg : s.generation = heap.generation)
    (vs : List Value) :
    heap.slice? s = some vs ↔ vs.length = s.length ∧ heap.HoldsValues s.offset vs := by
  unfold Arena.slice?
  by_cases h0 : s.length = 0
  · simp only [h0, ↓reduceIte, Option.some.injEq]
    constructor
    · rintro rfl
      exact ⟨rfl, holdsValues_nil _ _⟩
    · rintro ⟨hl, -⟩
      exact (List.eq_nil_of_length_eq_zero hl).symm
  · simp only [h0, ↓reduceIte]
    split
    · exact readFirst_eq_some_iff _ _ _ _
    · next hl =>
      constructor
      · intro h
        cases h
      · rintro ⟨hlen, hh⟩
        have hne : vs ≠ [] := by
          rintro rfl
          exact h0 hlen.symm
        exact absurd ((isLiveSlice_iff heap s).mpr ⟨hg, hlen ▸ holdsValues_lt hh hne⟩) hl

/-! ## Reading from a region that was mapped -/

section Mapped

variable {φ : Cell → Cell} {f : Value → Value} (hφ : ∀ c, (φ c).value? = c.value?.map f)
include hφ

theorem mapM_read_map (region : Array Cell) (base : Nat) (is : List Nat) :
    is.mapM (Storable.read (region.map φ) base) =
      (is.mapM (Storable.read region base)).map (List.map f) := by
  induction is with
  | nil => rfl
  | cons i is ih =>
    have hread : (Storable.read (region.map φ) base i : Option Value) =
        (Storable.read region base i).map f := by
      change (region.map φ)[base + i]?.bind Cell.value? =
        (region[base + i]?.bind Cell.value?).map f
      rw [Array.getElem?_map]
      cases region[base + i]? with
      | none => rfl
      | some c => exact hφ c
    rw [List.mapM_cons, List.mapM_cons, hread, ih]
    cases (Storable.read region base i : Option Value) with
    | none => rfl
    | some v => cases is.mapM (Storable.read region base : Nat → Option Value) <;> rfl

/-- Slices are read mapped, if they are live where they were live. -/
theorem slice?_map {heap heap' : Heap} (hregion : heap'.region = heap.region.map φ)
    {s s' : Slice Value} (hlive : heap'.isLiveSlice s' = heap.isLiveSlice s)
    (hoffset : s'.offset = s.offset) (hlength : s'.length = s.length) :
    heap'.slice? s' = (heap.slice? s).map (List.map f) := by
  simp only [Arena.slice?, hlive, hlength, hoffset]
  by_cases h0 : s.length = 0
  · simp only [h0, ↓reduceIte, Option.map_some, List.map_nil]
  · cases hl : heap.isLiveSlice s with
    | false => simp only [h0, ↓reduceIte, Bool.false_eq_true, Option.map_none]
    | true =>
      simp only [h0, ↓reduceIte, hregion]
      exact mapM_read_map hφ heap.region s.offset (List.range s.length)

end Mapped

/-! ## Storing records -/

private theorem overAligned_storable {α : Type} (inject : α → Cell) (project : Cell → Option α) :
    @Arena.overAligned Cell α (Cell.storable inject project) = false := rfl

private theorem append_toArray (region : Array Cell) (cells : List Cell) :
    region ++ cells.toArray = (region.toList ++ cells).toArray := by
  simp [← Array.toList_inj]

private theorem replace_fresh (region : Array Cell) (n : Nat) (c : Cell) :
    (region ++ Array.replicate (n + 1) (default : Cell)).setIfInBounds region.size c =
      region ++ (c :: List.replicate n default).toArray := by
  apply Array.ext_getElem?
  intro i
  rw [Array.getElem?_setIfInBounds, Array.getElem?_append, Array.getElem?_append]
  by_cases h : region.size = i
  · subst h
    simp
  · simp only [h, ↓reduceIte]
    split
    · rfl
    · next hi =>
      obtain ⟨j, rfl⟩ : ∃ j, i = region.size + (j + 1) := ⟨i - region.size - 1, by omega⟩
      simp [Array.getElem?_replicate, List.getElem?_replicate]

private theorem alloc_storable {α : Type} (inject : α → Cell) (project : Cell → Option α)
    (heap : Heap) (x : α) :
    @Arena.alloc Cell α _ (Cell.storable inject project) heap x =
      if heap.remaining < 1 then (.error (.outOfMemory 1 heap.remaining heap.capacity), heap)
      else (.ok ⟨⟨heap.used, heap.generation⟩⟩, heap.extend [inject x]) := by
  simp only [Arena.alloc, overAligned_storable, blocks_storable, Bool.false_eq_true, ↓reduceIte]
  by_cases h : heap.remaining < 1
  · simp [Arena.allocate_of_full h, h]
  · rw [Arena.allocate_of_fits (Nat.not_lt.mp h), if_neg h]
    simp only [Storable.write, extend, List.length_singleton, Nat.add_zero]
    congr 3
    exact replace_fresh heap.region 0 (inject x)

theorem alloc_closure_eq (heap : Heap) (c : Closure) :
    heap.alloc c =
      if heap.remaining < 1 then (.error (.outOfMemory 1 heap.remaining heap.capacity), heap)
      else (.ok ⟨⟨heap.used, heap.generation⟩⟩, heap.extend [.closure c]) :=
  alloc_storable _ _ heap c

theorem alloc_continuation_eq (heap : Heap) (k : Continuation) :
    heap.alloc k =
      if heap.remaining < 1 then (.error (.outOfMemory 1 heap.remaining heap.capacity), heap)
      else (.ok ⟨⟨heap.used, heap.generation⟩⟩, heap.extend [.continuation k]) :=
  alloc_storable _ _ heap k

private theorem writeFrom_blank (left : List Cell) (done vs : List Value) (head : Cell) :
    Storable.writeFrom (left.length + 1) done.length vs
        (left ++ head :: (done.map Cell.value ++ List.replicate vs.length default)).toArray =
      (left ++ head :: (done ++ vs).map Cell.value).toArray := by
  induction vs generalizing done with
  | nil => simp [Storable.writeFrom]
  | cons v vs ih =>
    have hset : Storable.write
        (left ++ head :: (done.map Cell.value ++ List.replicate (vs.length + 1) default)).toArray
          (left.length + 1) done.length v =
        (left ++ head :: ((done ++ [v]).map Cell.value ++
          List.replicate vs.length default)).toArray := by
      have hlt : ¬ left.length + 1 + done.length < left.length := by omega
      have hsub : left.length + 1 + done.length - left.length = done.length + 1 := by omega
      simp [Storable.write, List.set_append, List.replicate_succ, hlt, hsub]
    rw [Storable.writeFrom, List.length_cons, hset]
    have := ih (done ++ [v])
    rw [List.length_append, List.length_singleton] at this
    rw [this]
    simp

/-- Blocks that a record with `n` values asks for; a byte count beyond 64 bits is asked for as the
largest one. -/
def requested (n : Nat) : Nat := if longLimit ≤ n * blockSize then longLimit - 1 else 1 + n

private theorem allocWithTail_storable {η : Type} (inject : η → Cell) (project : Cell → Option η)
    (heap : Heap) (h : η) (vs : List Value) :
    @Arena.allocWithTail Cell Value η _ (Cell.storable inject project) _ heap h vs =
      if vs.length * blockSize < longLimit ∧ 1 + vs.length ≤ heap.remaining then
        (.ok ⟨⟨heap.used, heap.generation⟩⟩, heap.extend (inject h :: vs.map .value))
      else
        (.error (.outOfMemory (requested vs.length) heap.remaining heap.capacity), heap) := by
  have hv : Arena.overAligned Cell Value = false := rfl
  have hs : Storable.size Cell Value = blockSize := rfl
  have hn : blocksFor (vs.length * blockSize) = vs.length := by
    simp only [blocksFor, blockSize]
    omega
  simp only [Arena.allocWithTail, overAligned_storable, hv, blocks_storable, hs, Bool.or_self,
    Bool.false_eq_true, ↓reduceIte, Arena.allocateRun, hn, requested]
  by_cases hl : longLimit ≤ vs.length * blockSize
  · rw [if_pos hl, if_neg (fun hh => absurd hh.1 (Nat.not_lt.mpr hl)), if_pos hl]
  · rw [if_neg hl]
    by_cases hr : heap.remaining < 1 + vs.length
    · rw [Arena.allocate_of_full hr, if_neg (fun hh => absurd hh.2 (Nat.not_le.mpr hr)),
        if_neg hl]
    · rw [Arena.allocate_of_fits (Nat.not_lt.mp hr),
        if_pos ⟨Nat.not_le.mp hl, Nat.not_lt.mp hr⟩]
      simp only [Storable.write, extend, List.length_cons, List.length_map, Nat.add_zero]
      have hw := writeFrom_blank heap.region.toList [] vs (inject h)
      have hf := replace_fresh heap.region vs.length (inject h)
      rw [Nat.add_comm 1 vs.length]
      congr 3
      simp only [Arena.used] at *
      rw [hf, append_toArray, append_toArray]
      simpa using hw

/-- With a capacity of one word the byte count is never too large, and the length that a header
keeps is exact. -/
private theorem allocWithTail_of_word {η : Type} (inject : η → Cell) (project : Cell → Option η)
    {heap : Heap} (hw : heap.capacity < wordLimit) (header : Nat → η) (vs : List Value) :
    @Arena.allocWithTail Cell Value η _ (Cell.storable inject project) _ heap
        (header (min vs.length (wordLimit - 1))) vs =
      if heap.remaining < vs.length + 1 then
        (.error (.outOfMemory (requested vs.length) heap.remaining heap.capacity), heap)
      else
        (.ok ⟨⟨heap.used, heap.generation⟩⟩,
          heap.extend (inject (header vs.length) :: vs.map .value)) := by
  have hr : heap.remaining ≤ heap.capacity := Nat.sub_le _ _
  have hfits : (vs.length * blockSize < longLimit ∧ 1 + vs.length ≤ heap.remaining) ↔
      ¬ heap.remaining < vs.length + 1 := by
    simp only [wordLimit, longLimit, blockSize] at *
    omega
  rw [allocWithTail_storable]
  simp only [hfits, ite_not]
  split
  · rfl
  · rw [show min vs.length (wordLimit - 1) = vs.length by omega]

/-- Pushing a frame appends its header and the saved arguments, or finds no room. -/
theorem push_eq {heap : Heap} (hw : heap.capacity < wordLimit) (returnTo : NodeId)
    (env : Option EnvRef) (rib : List Value) (link : Option FrameRef) :
    CallFrame.push heap returnTo env rib link =
      if heap.remaining < rib.length + 1 then
        (.error (.outOfMemory (requested rib.length) heap.remaining heap.capacity), heap)
      else
        (.ok ⟨⟨heap.used, heap.generation⟩⟩,
          heap.extend (.frame ⟨returnTo, .ofRef? env, .ofRef? link, rib.length⟩ ::
            rib.map .value)) :=
  allocWithTail_of_word Cell.frame Cell.frame? hw
    (FrameHeader.mk returnTo (.ofRef? env) (.ofRef? link)) rib

/-- Binding parameters appends the header of a frame and the values, or finds no room. -/
theorem bind_eq {heap : Heap} (hw : heap.capacity < wordLimit) (names : FormalsId)
    (values : List Value) (parent : Option EnvRef) :
    EnvFrame.bind heap names values parent =
      if heap.remaining < values.length + 1 then
        (.error (.outOfMemory (requested values.length) heap.remaining heap.capacity), heap)
      else
        (.ok ⟨⟨heap.used, heap.generation⟩⟩,
          heap.extend (.environment ⟨names, .ofRef? parent, values.length⟩ ::
            values.map .value)) :=
  allocWithTail_of_word Cell.environment Cell.environment? hw
    (EnvHeader.mk names (.ofRef? parent)) values

/-- Writing into a slice replaces one value, if the slice is live and long enough. -/
theorem setAt_eq (heap : Heap) (s : Slice Value) (i : Nat) (v : Value) :
    (heap.setAt s i v = (.ok (), heap.setValue (s.offset + i) v) ∧ i < s.length ∧
        s.generation = heap.generation ∧ s.offset + s.length ≤ heap.used) ∨
      ((∃ e, heap.setAt s i v = (.error e, heap)) ∧
        ¬ (i < s.length ∧ s.generation = heap.generation ∧
          s.offset + s.length ≤ heap.used)) := by
  unfold Arena.setAt
  by_cases h0 : s.length = 0
  · exact .inr ⟨⟨_, by rw [if_pos h0]⟩, by omega⟩
  · simp only [h0, ↓reduceIte]
    by_cases hl : heap.isLiveSlice s = true
    · obtain ⟨hg, hu⟩ := (isLiveSlice_iff heap s).mp hl
      by_cases hi : i < s.length
      · exact .inl ⟨by simp [hl, hi, setValue, Storable.write], hi, hg, hu⟩
      · exact .inr ⟨⟨_, by rw [if_pos hl, if_neg hi]⟩, fun hh => hi hh.1⟩
    · exact .inr ⟨⟨_, by rw [if_neg hl]⟩, fun hh => hl ((isLiveSlice_iff heap s).mpr hh.2)⟩

end Heap

end ClosureMachine
