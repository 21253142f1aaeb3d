import ClosureMachine.Proofs.Arena.Ledger

/-!
Links to stored values. A link keeps the offset of a value plus one in a single word, and zero is
the link that leads nowhere; so of all offsets that fit in a word just the last has no link. An
offset lies below the capacity unless the value takes no blocks and the arena is full, and then it
is the capacity itself (`Ledger.Sound.stop_le`). Hence a link is lossless in every arena that is
not of the largest capacity, and for every value that takes a block
(`links_are_lossless_up_to_the_last_word`); `last_offset_has_no_link` is the one case that is left.
-/

namespace ClosureMachine

namespace Link

/-- The link to a reference fits in a word, leads somewhere, and leads back to the reference. -/
structure Lossless {α : Type} (r : Ref α) : Prop where
  fits : r.addr.offset + 1 < wordLimit
  leads : ofRef? (some r) ≠ none
  resolves : (ofRef? (some r)).resolve r.addr.generation = some r

theorem lossless_of_fits {α : Type} {r : Ref α} (h : r.addr.offset + 1 < wordLimit) :
    Lossless r where
  fits := h
  leads := by simp [ofRef?, none, Nat.mod_eq_of_lt h]
  resolves := resolve_ofRef? h

/-- The successor of the largest word is zero. -/
theorem ofRef?_last {α : Type} {r : Ref α} (h : r.addr.offset + 1 = wordLimit) :
    ofRef? (some r) = none := by
  simp [ofRef?, none, h]

theorem lossless_iff {α : Type} {r : Ref α} (h : r.addr.offset < wordLimit) :
    Lossless r ↔ r.addr.offset + 1 ≠ wordLimit := by
  constructor
  · intro hr
    exact Nat.ne_of_lt hr.fits
  · intro hne
    exact lossless_of_fits (Nat.lt_of_le_of_ne h hne)

/-- Links tell all offsets apart that fit in a word, the last included. -/
theorem ofRef?_eq_iff {α α' : Type} {r : Ref α} {s : Ref α'} (hr : r.addr.offset < wordLimit)
    (hs : s.addr.offset < wordLimit) :
    ofRef? (some r) = ofRef? (some s) ↔ r.addr.offset = s.addr.offset := by
  simp only [ofRef?, mk.injEq]
  constructor
  · intro h
    simp only [wordLimit] at h hr hs
    omega
  · intro h
    rw [h]

end Link

namespace Ledger

variable {β : Type}

/-- The blocks of a handle lie below the capacity; one without blocks may stand right behind. -/
theorem Sound.stop_le {l : Ledger β} (h : l.Sound) {e : Entry β} (he : e ∈ l.entries) :
    e.handle.addr.offset + e.handle.blocks ≤ l.arena.capacity :=
  Nat.le_trans (h.placed e he).stop_le h.used_le

theorem Sound.offset_lt {l : Ledger β} (h : l.Sound) {e : Entry β} (he : e ∈ l.entries) :
    e.handle.addr.offset < wordLimit :=
  Nat.lt_of_le_of_lt (Nat.le_of_add_right_le (h.stop_le he)) h.capacity_lt

/-- At the last offset there is a value without a size, on a full arena of the largest capacity. -/
theorem Sound.last_offset {l : Ledger β} (h : l.Sound) {k : Kind β} {r : Ref k.carrier}
    {x : k.carrier} (hr : ⟨.value k r, x⟩ ∈ l.entries) (hlast : r.addr.offset + 1 = wordLimit) :
    l.arena.capacity + 1 = wordLimit ∧ l.arena.used = l.arena.capacity ∧
      Storable.size β k.carrier = 0 := by
  have hstop : r.addr.offset + Storable.blocks β k.carrier 1 ≤ l.arena.used :=
    (h.placed _ hr).stop_le
  have hused := h.used_le
  have hcap := h.capacity_lt
  have hblocks : Storable.blocks β k.carrier 1 ≤ 0 := by omega
  have hsize : 1 * Storable.size β k.carrier ≤ 0 * blockSize :=
    (blocksFor_le_iff _ 0).mp hblocks
  exact ⟨by omega, by omega, by omega⟩

end Ledger

/-- The link to a reference that an arena issued loses nothing, unless the reference is to the last
offset of a word. There it leads nowhere; but only a value without a size can lie there, and only if
a full arena of the largest capacity precedes it. Two links of one generation are equal just if the
offsets are. -/
theorem links_are_lossless_up_to_the_last_word {β : Type} [Inhabited β] {l : Ledger β}
    (h : l.Reachable) {k : Kind β} {r : Ref k.carrier} {x : k.carrier}
    (hr : ⟨.value k r, x⟩ ∈ l.entries) :
    (Link.Lossless r ↔ r.addr.offset + 1 ≠ wordLimit) ∧
      (r.addr.offset + 1 = wordLimit → Link.ofRef? (some r) = Link.none ∧
        l.arena.capacity + 1 = wordLimit ∧ l.arena.used = l.arena.capacity ∧
        Storable.size β k.carrier = 0) ∧
      ∀ (k' : Kind β) (r' : Ref k'.carrier) (x' : k'.carrier), ⟨.value k' r', x'⟩ ∈ l.entries →
        (Link.ofRef? (some r) = Link.ofRef? (some r') ↔ r.addr.offset = r'.addr.offset) := by
  have hsound := h.sound
  refine ⟨Link.lossless_iff (hsound.offset_lt hr), ?_, ?_⟩
  · intro hlast
    exact ⟨Link.ofRef?_last hlast, hsound.last_offset hr hlast⟩
  · intro k' r' x' hr'
    exact Link.ofRef?_eq_iff (hsound.offset_lt hr) (hsound.offset_lt hr')

/-- Values without a size. -/
def Kind.unit : Kind ByteBlock where
  carrier := Unit

namespace Ledger

/-- A value without a size fits into every arena, behind all that is in use. -/
theorem alloc_unit (a : Arena ByteBlock) :
    (a.alloc (α := Kind.unit.carrier) ()).1 = .ok ⟨⟨a.used, a.generation⟩⟩ := by
  have haligned : Arena.overAligned ByteBlock Kind.unit.carrier = false := rfl
  have hblocks : Storable.blocks ByteBlock Kind.unit.carrier 1 = 0 := rfl
  simp [Arena.alloc, haligned, hblocks, Arena.allocate_of_fits (Nat.zero_le _)]

theorem Reachable.exists_unit {l : Ledger ByteBlock} (h : l.Reachable) :
    ∃ l' : Ledger ByteBlock, l'.Reachable ∧ l'.arena.capacity = l.arena.capacity ∧
      ⟨.value .unit ⟨⟨l.arena.used, l.arena.generation⟩⟩, ()⟩ ∈ l'.entries := by
  refine ⟨_, h.move (.alloc _ _ .unit ()), (issue_alloc h.sound.used_le .unit ()).capacity, ?_⟩
  rw [alloc_unit]
  exact List.mem_append_left _ (List.mem_singleton_self _)

theorem exists_full {n : Nat} (hpos : 0 < n) (hn : n < wordLimit) :
    ∃ l : Ledger ByteBlock, l.Reachable ∧ l.arena.capacity = n ∧ l.arena.used = n := by
  have hc : Arena.create n {} = .ok ((⟨n, #[], 0, 1⟩ : Arena ByteBlock), ⟨2⟩) := by
    rw [Arena.create, if_neg (by omega)]
    rfl
  have hroom : n ≤ (⟨n, #[], 0, 1⟩ : Arena ByteBlock).remaining := Nat.le_refl n
  have hfull := (Reachable.create hc).move (.allocate _ _ n)
  rw [Arena.allocate_of_fits hroom] at hfull
  exact ⟨_, hfull, rfl, by simp [Arena.used]⟩

end Ledger

/-- On a full arena of two blocks the link to the offset behind them loses nothing. -/
theorem links_are_lossless_up_to_the_last_word_small :
    ∃ (l : Ledger ByteBlock) (r : Ref Kind.unit.carrier), l.Reachable ∧
      ⟨.value .unit r, ()⟩ ∈ l.entries ∧ r.addr.offset = l.arena.capacity ∧ Link.Lossless r := by
  obtain ⟨l, hl, hcap, hused⟩ := Ledger.exists_full (n := 2) (by decide) (by decide)
  obtain ⟨l', hl', hcap', hr⟩ := hl.exists_unit
  have hne : l.arena.used + 1 ≠ wordLimit := by
    rw [hused]
    decide
  exact ⟨l', _, hl', hr, (hused.trans hcap.symm).trans hcap'.symm,
    (links_are_lossless_up_to_the_last_word hl' hr).1.mpr hne⟩

/-- A value without a size behind as many blocks as an arena can have: the link to it leads
nowhere. -/
theorem last_offset_has_no_link :
    ∃ (l : Ledger ByteBlock) (r : Ref Kind.unit.carrier), l.Reachable ∧
      ⟨.value .unit r, ()⟩ ∈ l.entries ∧ r.addr.offset + 1 = wordLimit ∧
      Link.ofRef? (some r) = Link.none ∧
      (Link.ofRef? (some r)).resolve r.addr.generation = (none : Option (Ref Unit)) := by
  obtain ⟨l, hl, -, hused⟩ := Ledger.exists_full (n := wordLimit - 1) (by decide) (by decide)
  obtain ⟨l', hl', -, hr⟩ := hl.exists_unit
  have hlast : l.arena.used + 1 = wordLimit := by rw [hused]; rfl
  have hnone : Link.ofRef? (some (⟨⟨l.arena.used, l.arena.generation⟩⟩ : Ref Unit)) = Link.none :=
    Link.ofRef?_last hlast
  exact ⟨l', _, hl', hr, hlast, hnone, hnone ▸ Link.resolve_none _⟩

end ClosureMachine
