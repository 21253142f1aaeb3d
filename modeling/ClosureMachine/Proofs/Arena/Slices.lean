import ClosureMachine.Proofs.Arena.Ledger

/-!
The length of a slice. Whether values fit is decided in blocks, but the handle keeps their number in
one word, and what does not go into the word is lost (`allocSlice_ok`). Values that take a block or
more cannot be so many, for there are fewer blocks than a word can count; shorter ones can, and
values without a size fit in any number. So a slice keeps its values exactly if a word can count
them, and always does where the capacity rules out more (`slices_keep_what_a_word_can_count`);
`uncounted_units_are_lost` is a slice of which nothing can be read.
-/

namespace ClosureMachine

variable {β : Type} [Inhabited β]

namespace Arena

/-- What a slice handle says of the values that were stored. -/
theorem allocSlice_ok {α : Type} [Storable β α] {a : Arena β} {xs : List α} {s : Slice α}
    (h : (a.allocSlice xs).1 = .ok s) :
    s.length = xs.length % wordLimit ∧ Storable.blocks β α xs.length ≤ a.remaining := by
  rcases a.allocSlice_cases xs with ⟨e, he⟩ | ⟨hn, he⟩
  · rw [he] at h
    cases h
  · rw [he] at h
    cases h
    exact ⟨rfl, hn⟩

/-- If the blocks cannot hold more values than a word can count, then there are not more. -/
theorem length_lt_of_allocSlice {α : Type} [Storable β α] {a : Arena β} {xs : List α} {s : Slice α}
    (h : (a.allocSlice xs).1 = .ok s)
    (hcap : a.capacity * blockSize < wordLimit * Storable.size β α) : xs.length < wordLimit := by
  have hn := (allocSlice_ok h).2
  have hle : a.remaining ≤ a.capacity := Nat.sub_le _ _
  have hbytes : xs.length * Storable.size β α ≤ a.capacity * blockSize :=
    (blocksFor_le_iff _ _).mp (Nat.le_trans hn hle)
  exact Nat.lt_of_mul_lt_mul_right (Nat.lt_of_le_of_lt hbytes hcap)

end Arena

/-- A slice that has been stored is as long as the low word of the number of its values, and holds
that many of them. It holds them all exactly if a word can count them, as it always can if the
blocks cannot hold more; so it is with values that take a block or more. -/
theorem slices_keep_what_a_word_can_count {l : Ledger β} (h : l.Reachable) (k : Kind β)
    (xs : List k.carrier) (s : Slice k.carrier) (hok : (l.arena.allocSlice xs).1 = .ok s) :
    s.length = xs.length % wordLimit ∧
      (l.arena.allocSlice xs).2.slice? s = some (xs.take s.length) ∧
      (l.arena.allocSlice xs).2.slice s = .ok (xs.take s.length) ∧
      (s.length = xs.length ↔ xs.length < wordLimit) ∧
      ((l.arena.allocSlice xs).2.slice? s = some xs ↔ xs.length < wordLimit) ∧
      (l.arena.capacity * blockSize < wordLimit * Storable.size β k.carrier →
        xs.length < wordLimit) ∧
      (blockSize ≤ Storable.size β k.carrier → xs.length < wordLimit) := by
  have hlen : s.length = xs.length % wordLimit := (Arena.allocSlice_ok hok).1
  have hmem : ⟨.slice k s, xs.take s.length⟩ ∈ Ledger.issued (l.arena.allocSlice xs).1
      fun s => [⟨.slice k s, xs.take s.length⟩] := hok ▸ List.mem_singleton_self _
  have hplaced := (Ledger.issue_allocSlice h.sound.used_le k xs).placed _ hmem
  obtain ⟨hread, hread'⟩ : (l.arena.allocSlice xs).2.slice? s = some (xs.take s.length) ∧
      (l.arena.allocSlice xs).2.slice s = .ok (xs.take s.length) := hplaced.reads
  have hexact : s.length = xs.length ↔ xs.length < wordLimit := by
    have hlt : xs.length % wordLimit < wordLimit := Nat.mod_lt _ wordLimit_pos
    constructor
    · intro heq
      omega
    · intro hxs
      rw [hlen, Nat.mod_eq_of_lt hxs]
  refine ⟨hlen, hread, hread', hexact, ?_, Arena.length_lt_of_allocSlice hok, ?_⟩
  · rw [hread, Option.some.injEq, ← hexact]
    constructor
    · intro htake
      have hle : s.length ≤ xs.length := hlen ▸ Nat.mod_le _ _
      rw [← List.length_take_of_le hle, htake]
    · intro heq
      rw [heq, List.take_length]
  · intro hsize
    refine Arena.length_lt_of_allocSlice hok ?_
    have hw := h.sound.capacity_lt
    calc l.arena.capacity * blockSize
      _ < wordLimit * blockSize := Nat.mul_lt_mul_of_pos_right hw (by decide)
      _ ≤ wordLimit * Storable.size β k.carrier := Nat.mul_le_mul_left _ hsize

/-- Six values of three bytes, of which the last straddles two blocks. -/
theorem slices_keep_what_a_word_can_count_triples :
    ∃ (l : Ledger ByteBlock) (s : Slice (Kind.bytes 3).carrier), l.Reachable ∧
      (l.arena.allocSlice sixTriples).1 = .ok s ∧ s.length = 6 ∧
      (l.arena.allocSlice sixTriples).2.slice? s = some sixTriples := by
  have hc : Arena.create 8 {} = .ok ((⟨8, #[], 0, 1⟩ : Arena ByteBlock), ⟨2⟩) := rfl
  have hreach := Ledger.Reachable.create hc
  have hok : ((⟨8, #[], 0, 1⟩ : Arena ByteBlock).allocSlice sixTriples).1 = .ok ⟨0, 6, 1⟩ := rfl
  obtain ⟨-, -, -, hlen, hread, -⟩ :=
    slices_keep_what_a_word_can_count hreach (.bytes 3) sixTriples _ hok
  have hcount : sixTriples.length < wordLimit := by decide
  exact ⟨_, _, hreach, hok, hlen.mpr hcount, hread.mpr hcount⟩

/-- One unit more than the largest word counts. They fit into any arena; their slice is empty. -/
theorem uncounted_units_are_lost :
    ∃ (l : Ledger ByteBlock) (s : Slice Unit), l.Reachable ∧
      (l.arena.allocSlice (List.replicate wordLimit ())).1 = .ok s ∧ s.length = 0 ∧
      (l.arena.allocSlice (List.replicate wordLimit ())).2.slice? s = some [] ∧
      s.length ≠ (List.replicate wordLimit ()).length := by
  have hc : Arena.create 1 {} = .ok ((⟨1, #[], 0, 1⟩ : Arena ByteBlock), ⟨2⟩) := rfl
  have hlen : (List.replicate wordLimit ()).length = wordLimit := List.length_replicate
  have hsize : Storable.size ByteBlock Unit = 0 := rfl
  have hok : ((⟨1, #[], 0, 1⟩ : Arena ByteBlock).allocSlice (List.replicate wordLimit ())).1 =
      .ok ⟨0, 0, 1⟩ := by
    have haligned : Arena.overAligned ByteBlock Unit = false := rfl
    simp only [Arena.allocSlice, haligned, hlen, hsize, Nat.mul_zero, Nat.mod_self]
    rfl
  refine ⟨_, ⟨0, 0, 1⟩, .create hc, hok, rfl, ?_, ?_⟩
  · rw [Arena.slice?, if_pos rfl]
  · rw [hlen]
    exact Nat.ne_of_lt wordLimit_pos

end ClosureMachine
