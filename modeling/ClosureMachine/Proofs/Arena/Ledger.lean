import ClosureMachine.Arena.Access
import ClosureMachine.Arena.Bytes.Lawful
import ClosureMachine.Proofs.Arena.Packing

/-!
Stored data is stable. A ledger is an arena with a list of all that it issued in this generation:
every handle, newest first, and next to it the contents that were last written through that handle.
Allocations of any kind, successful or not, and writes through any handle of the list move a ledger
along.

`Sound` is the invariant: the entries lie in the part of the region in use, one behind the other,
and each of them is stored as listed. An allocation adds entries behind all others (`Issue`), and a
write changes the blocks of its own entry only (`Sound.rewrite`); so each handle reads back what
its entry lists (`stored_data_stable`).
-/

namespace ClosureMachine

/-- A type of values together with the way they lie in blocks. -/
structure Kind (β : Type) where
  carrier : Type
  [storable : Storable β carrier]
  [lawful : LawfulStorable β carrier]

attribute [instance] Kind.storable Kind.lawful

/-- What an arena issues: plain runs of blocks, references and slices. -/
inductive Handle (β : Type) where
  | run (addr : Addr) (n : Nat)
  | value (k : Kind β) (r : Ref k.carrier)
  | slice (k : Kind β) (s : Slice k.carrier)

namespace Handle

variable {β : Type}

/-- What can be read and written through a handle. -/
def Contents : Handle β → Type
  | run _ _ => Unit
  | value k _ => k.carrier
  | slice k _ => List k.carrier

/-- The first block. -/
def addr : Handle β → Addr
  | run addr _ => addr
  | value _ r => r.addr
  | slice _ s => ⟨s.offset, s.generation⟩

/-- The number of blocks. -/
def blocks : Handle β → Nat
  | run _ n => n
  | value k _ => Storable.blocks β k.carrier 1
  | slice k s => Storable.blocks β k.carrier s.length

/-- The first block behind the handle's own. -/
def stop (h : Handle β) : Nat := h.addr.offset + h.blocks

/-- The blocks of the handle hold these contents. -/
def Stored (region : Array β) : (h : Handle β) → h.Contents → Prop
  | run _ _, _ => True
  | value k r, x => Storable.Holds (α := k.carrier) region r.addr.offset [x]
  | slice k s, xs => s.length = xs.length ∧ Storable.Holds (α := k.carrier) region s.offset xs

/-- Reading through the handle gives these contents. -/
def Reads (a : Arena β) : (h : Handle β) → h.Contents → Prop
  | run addr n, _ => a.isLive addr n = true
  | value _ r, x => a.get? r = some x ∧ a.get r = .ok x
  | slice _ s, xs => a.slice? s = some xs ∧ a.slice s = .ok xs

end Handle

/-- A handle and the contents last written through it. -/
structure Entry (β : Type) where
  handle : Handle β
  contents : handle.Contents

/-- An arena and all that it issued in this generation, newest first. -/
structure Ledger (β : Type) where
  arena : Arena β
  entries : List (Entry β)

namespace Ledger

variable {β : Type} [Inhabited β]

/-- The entries that a request adds: none if it fails. -/
def issued {ε : Type} (outcome : Except ArenaError ε) (entries : ε → List (Entry β)) :
    List (Entry β) :=
  match outcome with
  | .ok handle => entries handle
  | .error _ => []

/-- One operation within a generation. A slice handle has one word for its length, so it reaches
all of its values unless they are `wordLimit` or more. -/
inductive Move : Ledger β → Ledger β → Prop
  | allocate (a : Arena β) (es : List (Entry β)) (n : Nat) :
    Move ⟨a, es⟩ ⟨(a.allocate n).2, issued (a.allocate n).1 (fun addr => [⟨.run addr n, ()⟩]) ++ es⟩
  | alloc (a : Arena β) (es : List (Entry β)) (k : Kind β) (x : k.carrier) :
    Move ⟨a, es⟩ ⟨(a.alloc x).2, issued (a.alloc x).1 (fun r => [⟨.value k r, x⟩]) ++ es⟩
  | allocSlice (a : Arena β) (es : List (Entry β)) (k : Kind β) (xs : List k.carrier) :
    Move ⟨a, es⟩ ⟨(a.allocSlice xs).2,
      issued (a.allocSlice xs).1 (fun s => [⟨.slice k s, xs.take s.length⟩]) ++ es⟩
  | allocWithTail (a : Arena β) (es : List (Entry β)) (h k : Kind β) (x : h.carrier)
    (xs : List k.carrier) :
    Move ⟨a, es⟩ ⟨(a.allocWithTail x xs).2,
      issued (a.allocWithTail x xs).1 (fun r =>
        [⟨.slice k (r.tail β k.carrier xs.length), xs.take (wordLimit - 1)⟩, ⟨.value h r, x⟩]) ++
        es⟩
  | set (a : Arena β) (front back : List (Entry β)) (k : Kind β) (r : Ref k.carrier)
    (x y : k.carrier) :
    Move ⟨a, front ++ ⟨.value k r, x⟩ :: back⟩ ⟨(a.set r y).2, front ++ ⟨.value k r, y⟩ :: back⟩
  | setAt (a : Arena β) (front back : List (Entry β)) (k : Kind β) (s : Slice k.carrier)
    (xs : List k.carrier) (i : Nat) (y : k.carrier) :
    Move ⟨a, front ++ ⟨.slice k s, xs⟩ :: back⟩
      ⟨(a.setAt s i y).2, front ++ ⟨.slice k s, xs.set i y⟩ :: back⟩
  /-- A write through a reference of another generation. -/
  | setStale (a : Arena β) (es : List (Entry β)) (k : Kind β) (r : Ref k.carrier) (y : k.carrier) :
    r.addr.generation ≠ a.generation → Move ⟨a, es⟩ ⟨(a.set r y).2, es⟩
  /-- A write through a slice of another generation. -/
  | setAtStale (a : Arena β) (es : List (Entry β)) (k : Kind β) (s : Slice k.carrier) (i : Nat)
    (y : k.carrier) : s.generation ≠ a.generation → Move ⟨a, es⟩ ⟨(a.setAt s i y).2, es⟩

/-- The ledgers that come about. Each generation begins with an empty one. -/
inductive Reachable : Ledger β → Prop
  | create {n : Nat} {gens gens' : Generations} {a : Arena β} :
    Arena.create n gens = .ok (a, gens') → Reachable ⟨a, []⟩
  | move {l l' : Ledger β} : Reachable l → Move l l' → Reachable l'
  | reset {a a' : Arena β} {es : List (Entry β)} {gens gens' : Generations} :
    Reachable ⟨a, es⟩ → a.reset gens = .ok (a', gens') → Reachable ⟨a', []⟩

end Ledger

/-! ## The invariant -/

section Invariant

variable {β : Type}

/-- The handle is of this generation, its blocks are in use and hold the contents. -/
structure Entry.Placed (a : Arena β) (e : Entry β) : Prop where
  generation : e.handle.addr.generation = a.generation
  stop_le : e.handle.stop ≤ a.used
  stored : e.handle.Stored a.region e.contents

/-- The older entry ends before the newer one begins. -/
def Entry.Behind (newer older : Entry β) : Prop :=
  older.handle.stop ≤ newer.handle.addr.offset

structure Ledger.Sound (l : Ledger β) : Prop where
  used_le : l.arena.used ≤ l.arena.capacity
  capacity_lt : l.arena.capacity < wordLimit
  placed : ∀ e ∈ l.entries, e.Placed l.arena
  behind : l.entries.Pairwise Entry.Behind

/-- What a request does: it takes blocks at the end, and places its entries there. -/
structure Ledger.Issue (a a' : Arena β) (new : List (Entry β)) : Prop where
  capacity : a'.capacity = a.capacity
  generation : a'.generation = a.generation
  used_le : a'.used ≤ a'.capacity
  grows : a.used ≤ a'.used
  kept : ∀ k < a.used, a'.region[k]? = a.region[k]?
  placed : ∀ e ∈ new, e.Placed a'
  start_le : ∀ e ∈ new, a.used ≤ e.handle.addr.offset
  behind : new.Pairwise Entry.Behind

/-- Contents stay stored where the blocks of the handle stay as they are. -/
theorem Handle.Stored.congr {region region' : Array β} {h : Handle β} {x : h.Contents}
    (hs : h.Stored region x)
    (hr : ∀ k, h.addr.offset ≤ k → k < h.stop → region'[k]? = region[k]?) :
    h.Stored region' x := by
  cases h with
  | run addr n => exact trivial
  | value k r => exact Storable.Holds.congr hs hr
  | slice k s =>
    obtain ⟨hlen, hs⟩ := hs
    refine ⟨hlen, hs.congr ?_⟩
    intro j hlo hhi
    exact hr j hlo (by rwa [← hlen] at hhi)

section Reading

variable {α : Type} [Storable β α] {a : Arena β}

theorem Arena.get?_of_holds {r : Ref α} {x : α}
    (hlive : a.isLive r.addr (Storable.blocks β α 1) = true)
    (h : Storable.Holds a.region r.addr.offset [x]) : a.get? r = some x := by
  rw [get?, if_pos hlive]
  exact h 0 x rfl

theorem Arena.slice?_of_holds {s : Slice α} {xs : List α} (hlive : a.isLiveSlice s = true)
    (hlen : s.length = xs.length) (h : Storable.Holds a.region s.offset xs) :
    a.slice? s = some xs := by
  rw [slice?, if_pos hlive]
  split
  · next hz =>
    have hnil : xs = [] := List.eq_nil_of_length_eq_zero (hlen ▸ hz)
    rw [hnil]
  · rw [hlen]
    exact Storable.readFirst_of_holds h

end Reading

theorem Entry.Placed.isLive {a : Arena β} {e : Entry β} (h : e.Placed a) :
    a.isLive e.handle.addr e.handle.blocks = true := by
  have hstop : e.handle.addr.offset + e.handle.blocks ≤ a.used := h.stop_le
  simp [Arena.isLive, h.generation, hstop]

/-- What is placed can be read. -/
theorem Entry.Placed.reads {a : Arena β} {e : Entry β} (h : e.Placed a) :
    e.handle.Reads a e.contents := by
  have hlive := h.isLive
  have hs := h.stored
  obtain ⟨handle, x⟩ := e
  cases handle with
  | run addr n => exact hlive
  | value k r =>
    have hget := Arena.get?_of_holds (α := k.carrier) hlive hs
    exact ⟨hget, by rw [Arena.get, hget]⟩
  | slice k s =>
    have hslice := Arena.slice?_of_holds (α := k.carrier) hlive hs.1 hs.2
    exact ⟨hslice, by rw [Arena.slice, hslice]⟩

namespace Ledger

theorem Issue.none {a : Arena β} (h : a.used ≤ a.capacity) : Issue a a [] where
  capacity := rfl
  generation := rfl
  used_le := h
  grows := Nat.le_refl _
  kept _ _ := rfl
  placed _ he := absurd he List.not_mem_nil
  start_le _ he := absurd he List.not_mem_nil
  behind := .nil

theorem Sound.issue {a a' : Arena β} {new es : List (Entry β)} (h : Sound ⟨a, es⟩)
    (hi : Issue a a' new) : Sound ⟨a', new ++ es⟩ where
  used_le := hi.used_le
  capacity_lt := hi.capacity.symm ▸ h.capacity_lt
  placed e he := by
    rcases List.mem_append.mp he with he | he
    · exact hi.placed e he
    · have hp := h.placed e he
      have hstop : e.handle.stop ≤ a.used := hp.stop_le
      exact ⟨hp.generation.trans hi.generation.symm, Nat.le_trans hstop hi.grows,
        hp.stored.congr fun k _ hk => hi.kept k (Nat.lt_of_lt_of_le hk hstop)⟩
  behind := by
    refine List.pairwise_append.mpr ⟨hi.behind, h.behind, ?_⟩
    intro newer hn older ho
    exact Nat.le_trans (h.placed older ho).stop_le (hi.start_le newer hn)

/-- Two entries that lie one behind the other share no block. -/
theorem Sound.rewrite {a : Arena β} {front back : List (Entry β)} {e e' : Entry β}
    {region : Array β} (h : Sound ⟨a, front ++ e :: back⟩) (hh : e'.handle = e.handle)
    (hsize : region.size = a.region.size)
    (hstored : e'.handle.Stored region e'.contents)
    (helse : ∀ k, k < e.handle.addr.offset ∨ e.handle.stop ≤ k → region[k]? = a.region[k]?) :
    Sound ⟨{ a with region }, front ++ e' :: back⟩ := by
  have hused : ({ a with region } : Arena β).used = a.used := hsize
  obtain ⟨hfront, hrest, hcross⟩ := List.pairwise_append.mp h.behind
  obtain ⟨hback, hbacks⟩ := List.pairwise_cons.mp hrest
  have hother : ∀ o : Entry β, o.Placed a → o.Behind e ∨ e.Behind o →
      o.Placed { a with region } := by
    intro o ho hb
    refine ⟨ho.generation, hused.symm ▸ ho.stop_le, ho.stored.congr ?_⟩
    intro k hlo hhi
    apply helse
    rcases hb with hb | hb
    · exact .inr (Nat.le_trans hb hlo)
    · exact .inl (Nat.lt_of_lt_of_le hhi hb)
  have hplaced : e'.Placed { a with region } := by
    have he := h.placed e (by simp)
    exact ⟨hh ▸ he.generation, by rw [hused, hh]; exact he.stop_le, hstored⟩
  refine ⟨hused.symm ▸ h.used_le, h.capacity_lt, ?_, ?_⟩
  · intro o ho
    rcases List.mem_append.mp ho with hf | hr
    · exact hother o (h.placed o (by simp [hf])) (.inl (hcross o hf e List.mem_cons_self))
    · rcases List.mem_cons.mp hr with rfl | hb
      · exact hplaced
      · exact hother o (h.placed o (by simp [hb])) (.inr (hback o hb))
  · refine List.pairwise_append.mpr ⟨hfront, List.pairwise_cons.mpr ⟨?_, hbacks⟩, ?_⟩
    · intro o ho
      rw [Entry.Behind, hh]
      exact hback o ho
    · intro o ho o' ho'
      rcases List.mem_cons.mp ho' with rfl | hb
      · rw [Entry.Behind, hh]
        exact hcross o ho e List.mem_cons_self
      · exact hcross o ho o' (List.mem_cons_of_mem e hb)

theorem Sound.set {a : Arena β} {front back : List (Entry β)} {k : Kind β} {r : Ref k.carrier}
    {x : k.carrier} (h : Sound ⟨a, front ++ ⟨.value k r, x⟩ :: back⟩) (y : k.carrier) :
    Sound ⟨(a.set r y).2, front ++ ⟨.value k r, y⟩ :: back⟩ := by
  have hp : Entry.Placed a ⟨.value k r, x⟩ := h.placed _ (by simp)
  have hlive : a.isLive r.addr (Storable.blocks β k.carrier 1) = true := hp.isLive
  rw [Arena.set, if_pos hlive]
  refine h.rewrite rfl (LawfulStorable.size_write _ _ _ _) (Storable.holds_write y hp.stop_le) ?_
  intro j hj
  exact Storable.write_elsewhere y Nat.one_pos hj

theorem Sound.setAt {a : Arena β} {front back : List (Entry β)} {k : Kind β}
    {s : Slice k.carrier} {xs : List k.carrier}
    (h : Sound ⟨a, front ++ ⟨.slice k s, xs⟩ :: back⟩) (i : Nat) (y : k.carrier) :
    Sound ⟨(a.setAt s i y).2, front ++ ⟨.slice k s, xs.set i y⟩ :: back⟩ := by
  have hp : Entry.Placed a ⟨.slice k s, xs⟩ := h.placed _ (by simp)
  have hlive : a.isLiveSlice s = true := hp.isLive
  obtain ⟨hlen, hs⟩ : s.length = xs.length ∧ Storable.Holds a.region s.offset xs := hp.stored
  have hstop : s.offset + Storable.blocks β k.carrier s.length ≤ a.used := hp.stop_le
  rcases Nat.lt_or_ge i s.length with hi | hi
  · rw [Arena.setAt, if_neg (by omega), if_pos hlive, if_pos hi]
    refine h.rewrite rfl (LawfulStorable.size_write _ _ _ _) ⟨?_, ?_⟩ ?_
    · exact hlen.trans List.length_set.symm
    · exact hs.write (hlen ▸ hstop) y
    · intro j hj
      exact Storable.write_elsewhere y hi hj
  · have hset : xs.set i y = xs := List.set_eq_of_length_le (hlen ▸ hi)
    have hsame : (a.setAt s i y).2 = a := by
      rw [Arena.setAt, if_pos hlive, if_neg (Nat.not_lt.mpr hi)]
      split <;> rfl
    rw [hset, hsame]
    exact h

theorem sound_of_empty {a : Arena β} (hu : a.used = 0) (hw : a.capacity < wordLimit) :
    Sound ⟨a, []⟩ where
  used_le := hu ▸ Nat.zero_le _
  capacity_lt := hw
  placed _ he := absurd he List.not_mem_nil
  behind := .nil

end Ledger

end Invariant

/-! ## Requests -/

namespace Arena

variable {β α η : Type} [Inhabited β]

/-- The region with `n` blocks more. -/
def widened (a : Arena β) (n : Nat) : Array β := a.region ++ Array.replicate n default

/-- The arena after a request of `n` blocks, with this region. -/
def filled (a : Arena β) (n : Nat) (region : Array β) : Arena β :=
  { a with highWater := max a.highWater (a.used + n), region }

theorem size_widened (a : Arena β) (n : Nat) : (a.widened n).size = a.used + n := by
  simp [widened, used]

theorem widened_kept (a : Arena β) (n : Nat) {k : Nat} (hk : k < a.used) :
    (a.widened n)[k]? = a.region[k]? := by
  rw [widened, Array.getElem?_append_left hk]

theorem allocate_cases (a : Arena β) (n : Nat) :
    (∃ e, a.allocate n = (.error e, a)) ∨
      n ≤ a.remaining ∧ a.allocate n = (.ok ⟨a.used, a.generation⟩, a.filled n (a.widened n)) := by
  rcases Nat.lt_or_ge a.remaining n with h | h
  · exact .inl ⟨_, allocate_of_full h⟩
  · exact .inr ⟨h, allocate_of_fits h⟩

theorem allocateRun_cases (a : Arena β) (front bytes : Nat) :
    (∃ e, a.allocateRun front bytes = (.error e, a)) ∨
      front + blocksFor bytes ≤ a.remaining ∧ a.allocateRun front bytes =
        (.ok ⟨a.used, a.generation⟩,
          a.filled (front + blocksFor bytes) (a.widened (front + blocksFor bytes))) := by
  rw [allocateRun]
  split
  · exact .inl ⟨_, rfl⟩
  · exact allocate_cases a _

theorem alloc_cases [Storable β α] (a : Arena β) (x : α) :
    (∃ e, a.alloc x = (.error e, a)) ∨
      Storable.blocks β α 1 ≤ a.remaining ∧ a.alloc x =
        (.ok ⟨⟨a.used, a.generation⟩⟩, a.filled (Storable.blocks β α 1)
          (Storable.write (a.widened (Storable.blocks β α 1)) a.used 0 x)) := by
  rw [alloc]
  split
  · exact .inl ⟨_, rfl⟩
  · rcases a.allocate_cases (Storable.blocks β α 1) with ⟨e, he⟩ | ⟨hn, he⟩
    · exact .inl ⟨e, by rw [he]⟩
    · exact .inr ⟨hn, by rw [he]; rfl⟩

theorem allocSlice_cases [Storable β α] (a : Arena β) (xs : List α) :
    (∃ e, a.allocSlice xs = (.error e, a)) ∨
      Storable.blocks β α xs.length ≤ a.remaining ∧ a.allocSlice xs =
        (.ok ⟨a.used, xs.length % wordLimit, a.generation⟩,
          a.filled (Storable.blocks β α xs.length)
            (Storable.writeFrom a.used 0 xs (a.widened (Storable.blocks β α xs.length)))) := by
  rw [allocSlice]
  split
  · exact .inl ⟨_, rfl⟩
  · rcases a.allocateRun_cases 0 (xs.length * Storable.size β α) with ⟨e, he⟩ | ⟨hn, he⟩
    · exact .inl ⟨e, by rw [he]⟩
    · rw [Nat.zero_add] at hn he
      exact .inr ⟨hn, by rw [he]; rfl⟩

/-- A handle counts all of its values if a word can. -/
theorem length_of_allocSlice [Storable β α] {a : Arena β} {xs : List α} {s : Slice α}
    (h : (a.allocSlice xs).1 = .ok s) (hlen : xs.length < wordLimit) : s.length = xs.length := by
  rcases a.allocSlice_cases xs with ⟨e, he⟩ | ⟨-, he⟩
  · rw [he] at h
    cases h
  · rw [he] at h
    cases h
    exact Nat.mod_eq_of_lt hlen

theorem allocWithTail_cases [Storable β η] [Storable β α] (a : Arena β) (h : η) (xs : List α) :
    (∃ e, a.allocWithTail h xs = (.error e, a)) ∨
      ∃ n, n = Storable.blocks β η 1 + Storable.blocks β α xs.length ∧ n ≤ a.remaining ∧
        a.allocWithTail h xs =
          (.ok ⟨⟨a.used, a.generation⟩⟩, a.filled n
            (Storable.writeFrom (a.used + Storable.blocks β η 1) 0 xs
              (Storable.write (a.widened n) a.used 0 h))) := by
  rw [allocWithTail]
  split
  · exact .inl ⟨_, rfl⟩
  · rcases a.allocateRun_cases (Storable.blocks β η 1) (xs.length * Storable.size β α)
      with ⟨e, he⟩ | ⟨hn, he⟩
    · exact .inl ⟨e, by simp only [he]⟩
    · exact .inr ⟨_, rfl, hn, by simp only [he]; rfl⟩

end Arena

namespace Ledger

variable {β : Type} [Inhabited β]

/-- A request that fits, from where its entries lie. -/
theorem Issue.filled {a : Arena β} {n : Nat} {region : Array β} {new : List (Entry β)}
    (hu : a.used ≤ a.capacity) (hn : n ≤ a.remaining) (hsize : region.size = a.used + n)
    (hkept : ∀ k < a.used, region[k]? = (a.widened n)[k]?)
    (hnew : ∀ e ∈ new, e.handle.addr.generation = a.generation ∧
      a.used ≤ e.handle.addr.offset ∧ e.handle.stop ≤ a.used + n ∧
      e.handle.Stored region e.contents)
    (hbehind : new.Pairwise Entry.Behind) : Issue a (a.filled n region) new where
  capacity := rfl
  generation := rfl
  used_le := by
    simp only [Arena.remaining] at hn
    change region.size ≤ a.capacity
    omega
  grows := by
    change a.used ≤ region.size
    omega
  kept k hk := (hkept k hk).trans (a.widened_kept n hk)
  placed e he := by
    obtain ⟨hgen, -, hstop, hstored⟩ := hnew e he
    exact ⟨hgen, Nat.le_trans hstop (Nat.le_of_eq hsize.symm), hstored⟩
  start_le e he := (hnew e he).2.1
  behind := hbehind

theorem issue_allocate {a : Arena β} (hu : a.used ≤ a.capacity) (n : Nat) :
    Issue a (a.allocate n).2 (issued (a.allocate n).1 fun addr => [⟨.run addr n, ()⟩]) := by
  rcases a.allocate_cases n with ⟨e, he⟩ | ⟨hn, he⟩
  · rw [he]
    exact .none hu
  · rw [he]
    refine .filled hu hn (a.size_widened n) (fun _ _ => rfl) ?_ (List.pairwise_singleton _ _)
    intro e he
    rw [List.mem_singleton.mp he]
    exact ⟨rfl, Nat.le_refl _, Nat.le_refl _, trivial⟩

theorem issue_alloc {a : Arena β} (hu : a.used ≤ a.capacity) (k : Kind β) (x : k.carrier) :
    Issue a (a.alloc x).2 (issued (a.alloc x).1 fun r => [⟨.value k r, x⟩]) := by
  rcases a.alloc_cases x with ⟨e, he⟩ | ⟨hn, he⟩
  · rw [he]
    exact .none hu
  · have hroom : a.used + Storable.blocks β k.carrier 1 ≤
        (a.widened (Storable.blocks β k.carrier 1)).size :=
      Nat.le_of_eq (a.size_widened _).symm
    rw [he]
    refine .filled hu hn ?_ ?_ ?_ (List.pairwise_singleton _ _)
    · rw [LawfulStorable.size_write, a.size_widened]
    · intro j hj
      exact Storable.write_elsewhere x Nat.one_pos (.inl hj)
    · intro e he
      rw [List.mem_singleton.mp he]
      exact ⟨rfl, Nat.le_refl _, Nat.le_refl _, Storable.holds_write x hroom⟩

theorem issue_allocSlice {a : Arena β} (hu : a.used ≤ a.capacity) (k : Kind β)
    (xs : List k.carrier) :
    Issue a (a.allocSlice xs).2
      (issued (a.allocSlice xs).1 fun s => [⟨.slice k s, xs.take s.length⟩]) := by
  rcases a.allocSlice_cases xs with ⟨e, he⟩ | ⟨hn, he⟩
  · rw [he]
    exact .none hu
  · have hroom : a.used + Storable.blocks β k.carrier xs.length ≤
        (a.widened (Storable.blocks β k.carrier xs.length)).size :=
      Nat.le_of_eq (a.size_widened _).symm
    have hlen : xs.length % wordLimit ≤ xs.length := Nat.mod_le _ _
    rw [he]
    refine .filled hu hn ?_ ?_ ?_ (List.pairwise_singleton _ _)
    · rw [Storable.size_writeFrom, a.size_widened]
    · intro j hj
      exact Storable.writeFrom_elsewhere _ (.inl hj)
    · intro e he
      rw [List.mem_singleton.mp he]
      refine ⟨rfl, Nat.le_refl _, Nat.add_le_add_left (Storable.blocks_mono hlen) _, ?_, ?_⟩
      · exact (List.length_take_of_le hlen).symm
      · exact (Storable.holds_writeFrom _ hroom).take _

theorem issue_allocWithTail {a : Arena β} (hu : a.used ≤ a.capacity)
    (hw : a.capacity < wordLimit) (h k : Kind β) (x : h.carrier) (xs : List k.carrier) :
    Issue a (a.allocWithTail x xs).2
      (issued (a.allocWithTail x xs).1 fun r =>
        [⟨.slice k (r.tail β k.carrier xs.length), xs.take (wordLimit - 1)⟩,
          ⟨.value h r, x⟩]) := by
  rcases a.allocWithTail_cases x xs with ⟨e, he⟩ | ⟨n, hsum, hn, he⟩
  · rw [he]
    exact .none hu
  · have hn' : a.used + n ≤ a.capacity := by
      simp only [Arena.remaining] at hn
      omega
    have hoff : min (a.used + Storable.blocks β h.carrier 1) (wordLimit - 1) =
        a.used + Storable.blocks β h.carrier 1 := by omega
    have hlen : min xs.length (wordLimit - 1) ≤ xs.length := Nat.min_le_left _ _
    have hsize := a.size_widened n
    rw [he]
    refine .filled hu hn ?_ ?_ ?_ (List.pairwise_pair.mpr (Nat.le_of_eq hoff.symm))
    · rw [Storable.size_writeFrom, LawfulStorable.size_write, hsize]
    · intro j hj
      rw [Storable.writeFrom_elsewhere _ (.inl (by omega)),
        Storable.write_elsewhere x Nat.one_pos (.inl hj)]
    · intro e he
      rcases List.mem_cons.mp he with rfl | he
      · have hblocks := Storable.blocks_mono (β := β) (α := k.carrier) hlen
        refine ⟨rfl, ?_, ?_, ?_, ?_⟩
        · change a.used ≤ min (a.used + Storable.blocks β h.carrier 1) (wordLimit - 1)
          omega
        · change min (a.used + Storable.blocks β h.carrier 1) (wordLimit - 1) +
            Storable.blocks β k.carrier (min xs.length (wordLimit - 1)) ≤ a.used + n
          omega
        · exact (List.length_take.trans (Nat.min_comm _ _)).symm
        · change Storable.Holds _ (min (a.used + Storable.blocks β h.carrier 1) _) _
          rw [hoff]
          refine (Storable.holds_writeFrom _ ?_).take _
          rw [LawfulStorable.size_write, hsize]
          omega
      · obtain rfl := List.mem_singleton.mp he
        refine ⟨rfl, Nat.le_refl _, ?_, ?_⟩
        · change a.used + Storable.blocks β h.carrier 1 ≤ a.used + n
          omega
        · have hroom : a.used + Storable.blocks β h.carrier 1 ≤ (a.widened n).size := by omega
          refine (Storable.holds_write x hroom).congr ?_
          intro j _ hj
          exact Storable.writeFrom_elsewhere _ (.inl hj)

/-! ## Every ledger that comes about -/

/-- One operation leaves a ledger sound. -/
theorem Move.sound {l l' : Ledger β} (hm : Move l l') (h : l.Sound) : l'.Sound := by
  cases hm with
  | allocate a es n => exact h.issue (issue_allocate h.used_le n)
  | alloc a es k x => exact h.issue (issue_alloc h.used_le k x)
  | allocSlice a es k xs => exact h.issue (issue_allocSlice h.used_le k xs)
  | allocWithTail a es η k x xs =>
    exact h.issue (issue_allocWithTail h.used_le h.capacity_lt η k x xs)
  | set a front back k r x y => exact h.set y
  | setAt a front back k s xs i y => exact h.setAt i y
  | setStale a es k r y hg =>
    have hdead : a.isLive r.addr (Storable.blocks β k.carrier 1) = false := by
      simp [Arena.isLive, hg]
    simpa [Arena.set, hdead] using h
  | setAtStale a es k s i y hg =>
    have hdead : a.isLiveSlice s = false := by
      simp [Arena.isLiveSlice, Arena.isLive, hg]
    have hsame : (a.setAt s i y).2 = a := by
      rw [Arena.setAt, hdead]
      split <;> rfl
    rwa [hsame]

end Ledger

namespace Arena

variable {β : Type}

theorem create_eq_ok {n : Nat} {gens gens' : Generations} {a : Arena β}
    (h : create n gens = .ok (a, gens')) :
    n < wordLimit ∧ ∃ g, gens.issue? = some (g, gens') ∧ a = ⟨n, #[], 0, g⟩ := by
  unfold create at h
  split at h
  · cases h
  · next hn =>
    split at h
    · cases h
    · next g _ hg =>
      cases h
      exact ⟨Nat.not_le.mp fun hle => hn (.inr hle), g, hg, rfl⟩

theorem reset_eq_ok {a a' : Arena β} {gens gens' : Generations}
    (h : a.reset gens = .ok (a', gens')) :
    ∃ g, gens.issue? = some (g, gens') ∧ a' = { a with region := #[], generation := g } := by
  unfold reset at h
  split at h
  · cases h
  · next g _ hg =>
    cases h
    exact ⟨g, hg, rfl⟩

end Arena

namespace Ledger

variable {β : Type} [Inhabited β]

theorem Reachable.sound {l : Ledger β} (h : l.Reachable) : l.Sound := by
  induction h with
  | create hc =>
    obtain ⟨hn, g, -, rfl⟩ := Arena.create_eq_ok hc
    exact sound_of_empty rfl hn
  | move _ hm ih => exact hm.sound ih
  | reset _ hr ih =>
    obtain ⟨g, -, rfl⟩ := Arena.reset_eq_ok hr
    exact sound_of_empty rfl ih.capacity_lt

end Ledger

/-- Each handle reads back what was last written through it, and that is at first what was stored:
the value of a reference, and all the values of a slice or of a tail if a word can count them. -/
theorem stored_data_stable {β : Type} [Inhabited β] {l : Ledger β} (h : l.Reachable) :
    (∀ e ∈ l.entries, e.handle.Reads l.arena e.contents) ∧
      (∀ (k : Kind β) (xs : List k.carrier) (s : Slice k.carrier), xs.length < wordLimit →
        (l.arena.allocSlice xs).1 = .ok s → (l.arena.allocSlice xs).2.slice? s = some xs) ∧
      ∀ (η k : Kind β) (x : η.carrier) (xs : List k.carrier) (r : Ref η.carrier),
        xs.length < wordLimit → (l.arena.allocWithTail x xs).1 = .ok r →
          (l.arena.allocWithTail x xs).2.get? r = some x ∧
          (l.arena.allocWithTail x xs).2.slice? (r.tail β k.carrier xs.length) = some xs := by
  have hu := h.sound.used_le
  refine ⟨fun e he => (h.sound.placed e he).reads, ?_, ?_⟩
  · intro k xs s hlen hok
    have hmem : ⟨.slice k s, xs.take s.length⟩ ∈ Ledger.issued (l.arena.allocSlice xs).1
        fun s => [⟨.slice k s, xs.take s.length⟩] := hok ▸ List.mem_singleton_self _
    have hread := ((Ledger.issue_allocSlice hu k xs).placed _ hmem).reads.1
    rwa [Arena.length_of_allocSlice hok hlen, List.take_length] at hread
  · intro η k x xs r hlen hok
    have hissue := Ledger.issue_allocWithTail hu h.sound.capacity_lt η k x xs
    rw [hok] at hissue
    have hvalue := (hissue.placed ⟨.value η r, x⟩ (by simp [Ledger.issued])).reads.1
    have htail := (hissue.placed ⟨.slice k (r.tail β k.carrier xs.length), xs.take _⟩
      List.mem_cons_self).reads.1
    rw [List.take_of_length_le (Nat.le_sub_one_of_lt hlen)] at htail
    exact ⟨hvalue, htail⟩

instance (n : Nat) : Encoded (Vector UInt8 n) where
  size := n
  alignment := 1
  encode x := x.toList
  decode bs := if h : bs.length = n then some ⟨bs.toArray, h⟩ else none

instance (n : Nat) : LawfulEncoded (Vector UInt8 n) where
  length_encode x := x.length_toList
  decode_encode x := by
    have h : x.toList.toArray = x.toArray := rfl
    simp [Encoded.decode, Encoded.encode, h]

/-- Plain data of `n` bytes. -/
def Kind.bytes (n : Nat) : Kind ByteBlock where
  carrier := Vector UInt8 n

/-- A header of five bytes. -/
def smallHeader : (Kind.bytes 5).carrier := #v[0, 0, 0, 0, 0]

/-- Six values of three bytes; the last of them straddles two blocks. -/
def sixTriples : List (Kind.bytes 3).carrier :=
  [#v[1, 1, 1], #v[2, 2, 2], #v[3, 3, 3], #v[4, 4, 4], #v[5, 5, 5], #v[6, 6, 6]]

/-- An allocation behind a record with a tail, a write to the last value of the tail and one to the
header do not show elsewhere. -/
theorem stored_data_stable_record :
    ∃ (l : Ledger ByteBlock) (r : Ref (Kind.bytes 5).carrier), l.Reachable ∧
      l.arena.get? r = some #v[9, 9, 9, 9, 9] ∧
      l.arena.slice? (r.tail ByteBlock (Kind.bytes 3).carrier sixTriples.length) =
        some (sixTriples.set 5 #v[7, 8, 9]) := by
  have hc : Arena.create 8 {} = .ok ((⟨8, #[], 0, 1⟩ : Arena ByteBlock), ⟨2⟩) := rfl
  have hok : ((⟨8, #[], 0, 1⟩ : Arena ByteBlock).allocWithTail smallHeader sixTriples).1 =
    .ok ⟨⟨0, 1⟩⟩ := rfl
  have h₁ := (Ledger.Reachable.create hc).move
    (.allocWithTail _ _ (.bytes 5) (.bytes 3) smallHeader sixTriples)
  rw [hok] at h₁
  have h₂ := h₁.move (.set _ [_] [] (.bytes 5) _ _ #v[9, 9, 9, 9, 9])
  have h₃ := h₂.move (.alloc _ _ (.bytes 40) (Vector.replicate 40 7))
  have h₄ := h₃.move (.setAt _ _ [_] (.bytes 3) _ _ 5 #v[7, 8, 9])
  have hread := (stored_data_stable h₄).1
  have htail := hread _ (List.mem_append_right _ List.mem_cons_self)
  have hvalue := hread _ (List.mem_append_right _ (List.mem_cons_of_mem _ List.mem_cons_self))
  exact ⟨_, _, h₄, hvalue.1, htail.1⟩

end ClosureMachine
