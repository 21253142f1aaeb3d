import ClosureMachine.Arena.Storable

/-!
Values side by side. The elements of a run lie packed from its first block on, so everything that
happens to them happens in the blocks that the run was given:

* `Holds.congr`: what a run holds depends on its own blocks alone;
* `write_elsewhere`, `writeFrom_elsewhere`: a write changes no other block;
* `holds_writeFrom`, `Holds.write`: what was written is what the run holds.
-/

namespace ClosureMachine

namespace Storable

variable {β α : Type} [Storable β α]

/-- The run at `base` holds the values `xs`. -/
def Holds (region : Array β) (base : Nat) (xs : List α) : Prop :=
  ∀ (i : Nat) (x : α), xs[i]? = some x → read region base i = some x

theorem blocks_mono {m n : Nat} (h : m ≤ n) : blocks β α m ≤ blocks β α n := by
  have hb : m * size β α ≤ n * size β α := Nat.mul_le_mul_right _ h
  exact (blocksFor_le_iff _ _).mpr (Nat.le_trans hb (le_blocksFor_mul _))

/-- The bytes of a run end in its last block. -/
theorem end_le_blocks (base n : Nat) :
    base * blockSize + n * size β α ≤ (base + blocks β α n) * blockSize := by
  rw [Nat.add_mul]
  exact Nat.add_le_add_left (le_blocksFor_mul _) _

/-- An element touches blocks of its run only. -/
theorem Touches.within {base i k n : Nat} (h : Touches β α base i k) (hi : i < n) :
    base ≤ k ∧ k < base + blocks β α n := by
  obtain ⟨hlo, hhi⟩ := h
  have hn : (i + 1) * size β α ≤ n * size β α := Nat.mul_le_mul_right _ hi
  have hend := end_le_blocks (β := β) (α := α) base n
  simp only [blockSize] at *
  omega

theorem mapM_read_of_holds {region : Array β} {base start : Nat} {xs : List α}
    (h : ∀ (i : Nat) (x : α), xs[i]? = some x → read region base (start + i) = some x) :
    (List.range' start xs.length).mapM (read region base) = some xs := by
  induction xs generalizing start with
  | nil => rfl
  | cons x xs ih =>
    have hx : read region base start = some x := h 0 x rfl
    have hxs : (List.range' (start + 1) xs.length).mapM (read region base) = some xs := by
      apply ih
      intro i y hy
      rw [Nat.add_assoc, Nat.add_comm 1]
      exact h (i + 1) y hy
    rw [List.length_cons, List.range'_succ, List.mapM_cons, hx, hxs]
    rfl

theorem readFirst_of_holds {region : Array β} {base : Nat} {xs : List α}
    (h : Holds region base xs) : readFirst region base xs.length = some xs := by
  rw [readFirst, List.range_eq_range']
  exact mapM_read_of_holds fun i x hx => (Nat.zero_add i).symm ▸ h i x hx

theorem Holds.take {region : Array β} {base : Nat} {xs : List α} (h : Holds region base xs)
    (n : Nat) : Holds region base (xs.take n) := by
  intro i x hx
  rw [List.getElem?_take] at hx
  split at hx
  · exact h i x hx
  · cases hx

variable [LawfulStorable β α]

theorem Holds.congr {region region' : Array β} {base : Nat} {xs : List α}
    (h : Holds region base xs)
    (hr : ∀ k, base ≤ k → k < base + blocks β α xs.length → region'[k]? = region[k]?) :
    Holds region' base xs := by
  intro i x hx
  have hi : i < xs.length := (List.getElem?_eq_some_iff.mp hx).1
  rw [← h i x hx]
  apply LawfulStorable.read_congr
  intro k hk
  obtain ⟨hlo, hhi⟩ := hk.within hi
  exact hr k hlo hhi

theorem write_elsewhere {region : Array β} {base i n k : Nat} (x : α) (hi : i < n)
    (hk : k < base ∨ base + blocks β α n ≤ k) : (write region base i x)[k]? = region[k]? := by
  apply LawfulStorable.write_outside
  intro ht
  have := ht.within hi
  omega

theorem Holds.write {region : Array β} {base i : Nat} {xs : List α} (h : Holds region base xs)
    (hr : base + blocks β α xs.length ≤ region.size) (x : α) :
    Holds (Storable.write region base i x) base (xs.set i x) := by
  intro j y hy
  rw [List.getElem?_set] at hy
  split at hy
  · next hij =>
    subst hij
    split at hy
    · next hi =>
      cases hy
      apply LawfulStorable.read_write_same
      calc base * blockSize + (i + 1) * size β α
          ≤ base * blockSize + xs.length * size β α :=
            Nat.add_le_add_left (Nat.mul_le_mul_right _ hi) _
        _ ≤ (base + blocks β α xs.length) * blockSize := end_le_blocks base xs.length
        _ ≤ region.size * blockSize := Nat.mul_le_mul_right _ hr
    · cases hy
  · next hij =>
    rw [LawfulStorable.read_write_other _ _ _ _ _ hij]
    exact h j y hy

@[simp] theorem size_writeFrom (base i : Nat) (xs : List α) (region : Array β) :
    (writeFrom base i xs region).size = region.size := by
  induction xs generalizing i region with
  | nil => rfl
  | cons x xs ih => rw [writeFrom, ih, LawfulStorable.size_write]

theorem writeFrom_elsewhere {base i k : Nat} {xs : List α} (region : Array β)
    (hk : k < base ∨ base + blocks β α (i + xs.length) ≤ k) :
    (writeFrom base i xs region)[k]? = region[k]? := by
  induction xs generalizing i region with
  | nil => rfl
  | cons x xs ih =>
    rw [List.length_cons] at hk
    rw [writeFrom, ih _ (by rwa [Nat.add_assoc, Nat.add_comm 1]),
      write_elsewhere x (Nat.lt_add_of_pos_right (Nat.succ_pos xs.length)) hk]

/-- A write of later elements leaves the earlier ones. -/
theorem read_writeFrom_before {base i j : Nat} {xs : List α} (region : Array β) (hj : j < i) :
    read (writeFrom base i xs region) base j = (read region base j : Option α) := by
  induction xs generalizing i region with
  | nil => rfl
  | cons x xs ih =>
    rw [writeFrom, ih _ (by omega), LawfulStorable.read_write_other _ _ _ _ _ (by omega)]

theorem read_writeFrom {base i j : Nat} {xs : List α} {x : α} (region : Array β)
    (hr : base + blocks β α (i + xs.length) ≤ region.size) (hx : xs[j]? = some x) :
    read (writeFrom base i xs region) base (i + j) = some x := by
  induction xs generalizing i j region with
  | nil => cases hx
  | cons y ys ih =>
    rw [List.length_cons] at hr
    rw [writeFrom]
    cases j with
    | zero =>
      cases hx
      rw [read_writeFrom_before _ (by omega)]
      apply LawfulStorable.read_write_same
      calc base * blockSize + (i + 0 + 1) * size β α
          ≤ base * blockSize + (i + (ys.length + 1)) * size β α :=
            Nat.add_le_add_left (Nat.mul_le_mul_right _ (by omega)) _
        _ ≤ (base + blocks β α (i + (ys.length + 1))) * blockSize := end_le_blocks base _
        _ ≤ region.size * blockSize := Nat.mul_le_mul_right _ hr
    | succ j =>
      rw [show i + (j + 1) = i + 1 + j by omega]
      apply ih _ _ (by simpa using hx)
      rw [LawfulStorable.size_write]
      rwa [Nat.add_assoc, Nat.add_comm 1]

theorem holds_writeFrom {base : Nat} {xs : List α} (region : Array β)
    (hr : base + blocks β α xs.length ≤ region.size) :
    Holds (writeFrom base 0 xs region) base xs := by
  intro i x hx
  have hread : read (writeFrom base 0 xs region) base (0 + i) = some x :=
    read_writeFrom region ((Nat.zero_add xs.length).symm ▸ hr) hx
  rwa [Nat.zero_add] at hread

theorem holds_write {region : Array β} {base : Nat} (x : α)
    (hr : base + blocks β α 1 ≤ region.size) : Holds (write region base 0 x) base [x] :=
  @holds_writeFrom β α _ _ base [x] region hr

end Storable

end ClosureMachine
