import ClosureMachine.Arena.Bytes

/-!
Byte storage obeys the laws of storage. All of them come from what a write does to single bytes:
one inside the window is the byte written (`byteAt_writeBytes`), and any other is what it was
(`byteAt_writeBytes_outside`).
-/

namespace ClosureMachine

namespace ByteBlock

@[simp] theorem size_setByte (region : Array ByteBlock) (p : Nat) (b : UInt8) :
    (setByte region p b).size = region.size := by
  simp [setByte]

theorem byteAt_setByte_same {region : Array ByteBlock} {p : Nat} (b : UInt8)
    (h : p < region.size * blockSize) : byteAt (setByte region p b) p = some b := by
  have hk : p / blockSize < region.size := Nat.div_lt_of_lt_mul (by rwa [Nat.mul_comm])
  have hm : p % blockSize < blockSize := Nat.mod_lt _ (by decide)
  simp [byteAt, setByte, Array.getElem?_modify, Array.getElem?_eq_getElem hk, hm]

theorem byteAt_setByte_other (region : Array ByteBlock) {p q : Nat} (b : UInt8) (h : p ≠ q) :
    byteAt (setByte region p b) q = byteAt region q := by
  by_cases hk : p / blockSize = q / blockSize
  · have hm : p % blockSize ≠ q % blockSize := by
      intro hm
      have hp := Nat.div_add_mod p blockSize
      have hq := Nat.div_add_mod q blockSize
      rw [hk, hm, hq] at hp
      exact h hp.symm
    cases hr : region[q / blockSize]? with
    | none => simp [byteAt, setByte, Array.getElem?_modify, hk, hr]
    | some block => simp [byteAt, setByte, Array.getElem?_modify, hk, hr, hm]
  · simp [byteAt, setByte, Array.getElem?_modify, hk]

theorem getElem?_setByte (region : Array ByteBlock) {p k : Nat} (b : UInt8)
    (h : p / blockSize ≠ k) : (setByte region p b)[k]? = region[k]? := by
  simp [setByte, Array.getElem?_modify, h]

@[simp] theorem size_writeBytes (p : Nat) (bs : List UInt8) (region : Array ByteBlock) :
    (writeBytes p bs region).size = region.size := by
  induction bs generalizing p region with
  | nil => rfl
  | cons b bs ih => rw [writeBytes, ih, size_setByte]

/-- Bytes outside the window of a write stay as they are. -/
theorem byteAt_writeBytes_outside {p q : Nat} {bs : List UInt8} (region : Array ByteBlock)
    (h : q < p ∨ p + bs.length ≤ q) : byteAt (writeBytes p bs region) q = byteAt region q := by
  induction bs generalizing p region with
  | nil => rfl
  | cons b bs ih =>
    rw [List.length_cons] at h
    rw [writeBytes, ih _ (by omega), byteAt_setByte_other _ _ (by omega)]

/-- Bytes inside the window of a write are those written. -/
theorem byteAt_writeBytes {p i : Nat} {bs : List UInt8} (region : Array ByteBlock)
    (hi : i < bs.length) (hr : p + bs.length ≤ region.size * blockSize) :
    byteAt (writeBytes p bs region) (p + i) = bs[i]? := by
  induction bs generalizing p i region with
  | nil => exact absurd hi (Nat.not_lt_zero i)
  | cons b bs ih =>
    rw [List.length_cons] at hi hr
    rw [writeBytes]
    cases i with
    | zero =>
      rw [byteAt_writeBytes_outside _ (by omega), Nat.add_zero,
        byteAt_setByte_same _ (by omega), List.getElem?_cons_zero]
    | succ i =>
      rw [show p + (i + 1) = p + 1 + i by omega, ih _ (by omega) (by rw [size_setByte]; omega),
        List.getElem?_cons_succ]

/-- Blocks that the window of a write does not meet stay as they are. -/
theorem getElem?_writeBytes {p k : Nat} {bs : List UInt8} (region : Array ByteBlock)
    (h : (k + 1) * blockSize ≤ p ∨ p + bs.length ≤ k * blockSize) :
    (writeBytes p bs region)[k]? = region[k]? := by
  induction bs generalizing p region with
  | nil => rfl
  | cons b bs ih =>
    rw [List.length_cons] at h
    simp only [blockSize] at h ih
    rw [writeBytes, ih _ (by omega), getElem?_setByte _ _ (by simp only [blockSize]; omega)]

theorem readBytes_congr {region region' : Array ByteBlock} {p n : Nat}
    (h : ∀ k < n, byteAt region (p + k) = byteAt region' (p + k)) :
    readBytes region p n = readBytes region' p n := by
  unfold readBytes
  have key : ∀ l : List Nat, (∀ k ∈ l, k < n) →
      l.mapM (fun k => byteAt region (p + k)) = l.mapM fun k => byteAt region' (p + k) := by
    intro l hl
    induction l with
    | nil => rfl
    | cons k l ih =>
      rw [List.mapM_cons, List.mapM_cons, h k (hl k List.mem_cons_self),
        ih fun j hj => hl j (List.mem_cons_of_mem k hj)]
  exact key _ fun k hk => List.mem_range.mp hk

/-- Reading the window of a write gives back what was written. -/
theorem readBytes_writeBytes {p : Nat} {bs : List UInt8} (region : Array ByteBlock)
    (hr : p + bs.length ≤ region.size * blockSize) :
    readBytes (writeBytes p bs region) p bs.length = some bs := by
  have key : ∀ l : List Nat, (∀ k ∈ l, k < bs.length) →
      l.mapM (fun k => byteAt (writeBytes p bs region) (p + k)) =
        some (l.map fun k => bs.getD k 0) := by
    intro l hl
    induction l with
    | nil => rfl
    | cons k l ih =>
      have hk : k < bs.length := hl k List.mem_cons_self
      rw [List.mapM_cons, byteAt_writeBytes _ hk hr, List.getElem?_eq_getElem hk,
        ih fun j hj => hl j (List.mem_cons_of_mem k hj)]
      simp [hk]
  rw [readBytes, key _ fun k hk => List.mem_range.mp hk]
  congr 1
  apply List.ext_getElem
  · simp
  · intro i _ hi
    simp [hi]

end ByteBlock

open ByteBlock in
instance {α : Type} [Encoded α] [LawfulEncoded α] : LawfulStorable ByteBlock α where
  size_write region base i x := size_writeBytes _ _ _
  read_write_same region base i x h := by
    have hs := LawfulEncoded.length_encode x
    have hw : base * blockSize + i * Encoded.size α + (Encoded.encode x).length ≤
        region.size * blockSize := by
      rw [hs, Nat.add_assoc, ← Nat.succ_mul]
      exact h
    have hr := readBytes_writeBytes region hw
    rw [hs] at hr
    simp only [Storable.read, Storable.write, hr, Option.bind_some, LawfulEncoded.decode_encode]
  read_write_other region base i j x h := by
    have hs := LawfulEncoded.length_encode x
    simp only [Storable.read, Storable.write]
    congr 1
    apply readBytes_congr
    intro k hk
    apply byteAt_writeBytes_outside
    rw [hs]
    rcases Nat.lt_or_gt_of_ne h with hlt | hlt
    · have := Nat.mul_le_mul_right (Encoded.size α) (Nat.succ_le_of_lt hlt)
      rw [Nat.succ_mul] at this
      omega
    · have := Nat.mul_le_mul_right (Encoded.size α) (Nat.succ_le_of_lt hlt)
      rw [Nat.succ_mul] at this
      omega
  write_outside region base i k x h := by
    apply getElem?_writeBytes
    rw [LawfulEncoded.length_encode x]
    simp only [Storable.Touches, Storable.size, Nat.succ_mul] at h
    rw [Nat.succ_mul]
    omega
  read_congr region region' base i h := by
    simp only [Storable.read]
    congr 1
    apply readBytes_congr
    intro k hk
    have touches : Storable.Touches ByteBlock α base i
        ((base * blockSize + i * Encoded.size α + k) / blockSize) := by
      simp only [Storable.Touches, Storable.size, Nat.succ_mul, blockSize]
      omega
    rw [byteAt, byteAt, h _ touches]

instance : LawfulEncoded Triple where
  length_encode x := by simp [Encoded.encode, Encoded.size, length_littleEndian]
  decode_encode x := by
    have h (y : UInt64) : y.toNat % Nat.pow 256 8 = y.toNat := Nat.mod_eq_of_lt y.toNat_lt
    simp [Encoded.decode, Encoded.encode, length_littleEndian, List.drop_append,
      List.take_of_length_le, List.drop_of_length_le,
      ofLittleEndian_littleEndian, h]

instance : LawfulEncoded Wide where
  length_encode x := length_littleEndian 32 x.value.toNat
  decode_encode x := by
    have h : x.value.toNat % Nat.pow 256 32 = x.value.toNat :=
      Nat.mod_eq_of_lt (Nat.lt_trans x.value.toNat_lt (by decide))
    simp only [Encoded.decode, Encoded.encode, length_littleEndian, ofLittleEndian_littleEndian,
      h, ↓reduceIte, UInt64.ofNat_toNat]

instance (e : Element) : LawfulEncoded e.Carrier :=
  match e with
  | .byte => inferInstanceAs (LawfulEncoded UInt8)
  | .word => inferInstanceAs (LawfulEncoded UInt32)
  | .long => inferInstanceAs (LawfulEncoded UInt64)
  | .triple => inferInstanceAs (LawfulEncoded Triple)
  | .unit => inferInstanceAs (LawfulEncoded Unit)
  | .wide => inferInstanceAs (LawfulEncoded Wide)

end ClosureMachine
