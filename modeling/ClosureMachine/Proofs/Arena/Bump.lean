import Mathlib.Algebra.Order.Floor.Div
import ClosureMachine.Proofs.Arena.Ledger

/-!
Allocation is an exact bump. The four ways to ask an arena for storage are the constructors of
`Arena.Request`, each with its `cost` in blocks. Whatever is stored, a request that fits takes the
next `cost` blocks (`submit_of_fits`), and one that does not fit reports its cost and what is left
(`submit_of_full`).

A `Log` is an arena with the calls of this generation and with every number of blocks that was in
use so far. `Log.Exact` is its invariant: the blocks issued in this generation, one call after the
other, are `0, 1, 2, …` up to the number in use. From it follow, in `allocation_is_an_exact_bump`,
that no block is issued twice or lost, that the high-water mark is a maximum over all generations,
and that a new generation repeats an old one.
-/

namespace ClosureMachine

theorem blocksFor_eq_ceilDiv (bytes : Nat) : blocksFor bytes = bytes ⌈/⌉ blockSize := by
  rw [Nat.ceilDiv_eq_add_pred_div, blocksFor]
  rfl

namespace Arena

variable {β : Type}

/-- What can be asked of an arena: plain blocks, a value, values side by side, or a header with a
tail. -/
inductive Request (β : Type) where
  | blocks (n : Nat)
  | value (k : Kind β) (x : k.carrier)
  | slice (k : Kind β) (xs : List k.carrier)
  | record (h k : Kind β) (x : h.carrier) (xs : List k.carrier)

namespace Request

/-- The bytes of each part, rounded up to whole blocks. -/
def cost : Request β → Nat
  | blocks n => n
  | value k _ => Storable.size β k.carrier ⌈/⌉ blockSize
  | slice k xs => (xs.length * Storable.size β k.carrier) ⌈/⌉ blockSize
  | record h k _ xs =>
    Storable.size β h.carrier ⌈/⌉ blockSize +
      (xs.length * Storable.size β k.carrier) ⌈/⌉ blockSize

/-- No value needs a stricter alignment than blocks have, and byte counts fit in 64 bits. -/
def Admissible : Request β → Prop
  | blocks _ => True
  | value k _ => Storable.alignment β k.carrier ≤ blockSize
  | slice k xs =>
    Storable.alignment β k.carrier ≤ blockSize ∧
      xs.length * Storable.size β k.carrier < longLimit
  | record h k _ xs =>
    Storable.alignment β h.carrier ≤ blockSize ∧ Storable.alignment β k.carrier ≤ blockSize ∧
      xs.length * Storable.size β k.carrier < longLimit

/-- The region after the request's values are written from block `base` on. -/
def store (base : Nat) (region : Array β) : Request β → Array β
  | blocks _ => region
  | value _ x => Storable.write region base 0 x
  | slice _ xs => Storable.writeFrom base 0 xs region
  | record h _ x xs =>
    Storable.writeFrom (base + Storable.blocks β h.carrier 1) 0 xs
      (Storable.write region base 0 x)

theorem size_store (base : Nat) (region : Array β) (q : Request β) :
    (q.store base region).size = region.size := by
  cases q with
  | blocks n => rfl
  | value k x => exact LawfulStorable.size_write _ _ _ _
  | slice k xs => exact Storable.size_writeFrom _ _ _ _
  | record h k x xs => rw [store, Storable.size_writeFrom, LawfulStorable.size_write]

end Request

theorem overAligned_eq_false {α : Type} [Storable β α] (h : Storable.alignment β α ≤ blockSize) :
    overAligned β α = false :=
  decide_eq_false (Nat.not_lt.mpr h)

variable [Inhabited β]

/-- Make a request; the answer is where its blocks begin. -/
def submit (a : Arena β) : Request β → Except ArenaError Addr × Arena β
  | .blocks n => a.allocate n
  | .value _ x => ((a.alloc x).1.map Ref.addr, (a.alloc x).2)
  | .slice _ xs => ((a.allocSlice xs).1.map fun s => ⟨s.offset, s.generation⟩, (a.allocSlice xs).2)
  | .record _ _ x xs => ((a.allocWithTail x xs).1.map Ref.addr, (a.allocWithTail x xs).2)

/-- The answers to requests made one after the other, as offsets, and the arena in the end. -/
def serve (a : Arena β) : List (Request β) → List (Except ArenaError Nat) × Arena β
  | [] => ([], a)
  | q :: qs =>
    let rest := (a.submit q).2.serve qs
    ((a.submit q).1.map Addr.offset :: rest.1, rest.2)

/-! ## One request -/

/-- Every request takes plain blocks and then writes into them. -/
theorem submit_eq (a : Arena β) {q : Request β} (hq : q.Admissible) :
    a.submit q = match a.allocate q.cost with
      | (.ok addr, b) => (.ok addr, { b with region := q.store addr.offset b.region })
      | (.error e, b) => (.error e, b) := by
  cases q with
  | blocks n =>
    simp only [submit, Request.cost]
    rcases a.allocate n with ⟨_ | _, _⟩ <;> rfl
  | value k x =>
    have hn : Storable.blocks β k.carrier 1 = (Request.value k x).cost := by
      rw [Storable.blocks, Nat.one_mul, blocksFor_eq_ceilDiv, Request.cost]
    simp only [submit, alloc, overAligned_eq_false hq, hn]
    rcases a.allocate (Request.value k x).cost with ⟨_ | _, _⟩ <;> rfl
  | slice k xs =>
    obtain ⟨hal, hbytes⟩ := hq
    have hrun : a.allocateRun 0 (xs.length * Storable.size β k.carrier) =
        a.allocate (Request.slice k xs).cost := by
      rw [allocateRun, if_neg (Nat.not_le.mpr hbytes), Nat.zero_add, blocksFor_eq_ceilDiv,
        Request.cost]
    simp only [submit, allocSlice, overAligned_eq_false hal, hrun]
    rcases a.allocate (Request.slice k xs).cost with ⟨_ | _, _⟩ <;> rfl
  | record η k x xs =>
    obtain ⟨hη, hk, hbytes⟩ := hq
    have hrun : a.allocateRun (Storable.blocks β η.carrier 1)
        (xs.length * Storable.size β k.carrier) = a.allocate (Request.record η k x xs).cost := by
      rw [allocateRun, if_neg (Nat.not_le.mpr hbytes), Storable.blocks, Nat.one_mul,
        blocksFor_eq_ceilDiv, blocksFor_eq_ceilDiv, Request.cost]
    simp only [submit, allocWithTail, overAligned_eq_false hη, overAligned_eq_false hk, hrun]
    rcases a.allocate (Request.record η k x xs).cost with ⟨_ | _, _⟩ <;> rfl

theorem submit_of_fits {a : Arena β} {q : Request β} (hq : q.Admissible)
    (h : q.cost ≤ a.remaining) :
    a.submit q = (.ok ⟨a.used, a.generation⟩,
      a.filled q.cost (q.store a.used (a.widened q.cost))) := by
  rw [submit_eq a hq, allocate_of_fits h]
  rfl

theorem submit_of_full {a : Arena β} {q : Request β} (hq : q.Admissible)
    (h : a.remaining < q.cost) :
    a.submit q = (.error (.outOfMemory q.cost a.remaining a.capacity), a) := by
  rw [submit_eq a hq, allocate_of_full h]

/-- The arena after a request that fits has just the blocks of the request more in use. -/
theorem used_filled_store (a : Arena β) (q : Request β) :
    (a.filled q.cost (q.store a.used (a.widened q.cost))).used = a.used + q.cost := by
  change (q.store a.used (a.widened q.cost)).size = _
  rw [q.size_store, a.size_widened]

/-- What one request does, in numbers. -/
structure Bumps (a : Arena β) (q : Request β) : Prop where
  /-- It succeeds just if it fits. -/
  ok_iff : (∃ addr, (a.submit q).1 = .ok addr) ↔ q.cost ≤ a.capacity - a.used
  /-- Success takes the next blocks. -/
  of_ok : ∀ addr, (a.submit q).1 = .ok addr →
    addr = ⟨a.used, a.generation⟩ ∧ (a.submit q).2.used = a.used + q.cost ∧
      (a.submit q).2.capacity = a.capacity
  /-- Failure changes nothing. -/
  of_error : ∀ e, (a.submit q).1 = .error e →
    e = .outOfMemory q.cost (a.capacity - a.used) a.capacity ∧ (a.submit q).2 = a

theorem bumps (a : Arena β) {q : Request β} (hq : q.Admissible) : a.Bumps q := by
  rcases Nat.lt_or_ge a.remaining q.cost with h | h
  · have hs := submit_of_full hq h
    refine ⟨?_, ?_, ?_⟩
    · rw [hs]
      exact ⟨fun ⟨_, hok⟩ => (nomatch hok), fun hle => absurd hle (Nat.not_le.mpr h)⟩
    · intro addr hok
      rw [hs] at hok
      cases hok
    · intro e he
      rw [hs] at he ⊢
      cases he
      exact ⟨rfl, rfl⟩
  · have hs := submit_of_fits hq h
    refine ⟨?_, ?_, ?_⟩
    · rw [hs]
      exact ⟨fun _ => h, fun _ => ⟨_, rfl⟩⟩
    · intro addr hok
      rw [hs] at hok ⊢
      cases hok
      exact ⟨rfl, a.used_filled_store q, rfl⟩
    · intro e he
      rw [hs] at he
      cases he

/-! ## Requests one after the other -/

theorem serve_append (a : Arena β) (qs rs : List (Request β)) :
    a.serve (qs ++ rs) =
      ((a.serve qs).1 ++ ((a.serve qs).2.serve rs).1, ((a.serve qs).2.serve rs).2) := by
  induction qs generalizing a with
  | nil => rfl
  | cons q qs ih => simp only [List.cons_append, serve, ih]

/-- The answers depend on the capacity and on the blocks in use only. -/
theorem serve_congr {a b : Arena β} (hcap : a.capacity = b.capacity) (hused : a.used = b.used)
    {qs : List (Request β)} (hqs : ∀ q ∈ qs, q.Admissible) : (a.serve qs).1 = (b.serve qs).1 := by
  induction qs generalizing a b with
  | nil => rfl
  | cons q qs ih =>
    have hq := hqs q List.mem_cons_self
    have hrest := fun p hp => hqs p (List.mem_cons_of_mem q hp)
    have hrem : a.remaining = b.remaining := by rw [remaining, remaining, hcap, hused]
    rcases Nat.lt_or_ge a.remaining q.cost with h | h
    · simp only [serve, submit_of_full hq h, submit_of_full hq (hrem ▸ h), hrem, hcap]
      exact congrArg _ (ih hcap hused hrest)
    · have hnext : (a.filled q.cost (q.store a.used (a.widened q.cost))).used =
          (b.filled q.cost (q.store b.used (b.widened q.cost))).used := by
        rw [used_filled_store, used_filled_store, hused]
      rw [serve, serve, submit_of_fits hq h, submit_of_fits hq (hrem ▸ h)]
      refine congrArg₂ List.cons ?_ (ih hcap hnext hrest)
      rw [hused]
      rfl

/-- Requests that fit together all succeed, and take what they cost. -/
theorem serve_of_fits {a : Arena β} {qs : List (Request β)} (hqs : ∀ q ∈ qs, q.Admissible)
    (h : (qs.map Request.cost).sum ≤ a.remaining) :
    (∀ answer ∈ (a.serve qs).1, ∃ offset, answer = .ok offset) ∧
      (a.serve qs).2.used = a.used + (qs.map Request.cost).sum := by
  induction qs generalizing a with
  | nil => exact ⟨fun _ hmem => absurd hmem List.not_mem_nil, rfl⟩
  | cons q qs ih =>
    rw [List.map_cons, List.sum_cons] at h ⊢
    have hq : q.cost ≤ a.remaining := Nat.le_trans (Nat.le_add_right _ _) h
    have hs := submit_of_fits (hqs q List.mem_cons_self) hq
    have hroom : (qs.map Request.cost).sum ≤
        (a.filled q.cost (q.store a.used (a.widened q.cost))).remaining := by
      have hcap : (a.filled q.cost (q.store a.used (a.widened q.cost))).capacity = a.capacity := rfl
      rw [remaining] at h ⊢
      rw [used_filled_store, hcap]
      omega
    obtain ⟨hok, hused⟩ := ih (fun p hp => hqs p (List.mem_cons_of_mem q hp)) hroom
    simp only [serve, hs]
    refine ⟨?_, ?_⟩
    · intro answer hmem
      rcases List.mem_cons.mp hmem with rfl | hmem
      · exact ⟨a.used, rfl⟩
      · exact hok answer hmem
    · rw [hused, used_filled_store, Nat.add_assoc]

/-! ## Whole histories -/

/-- A request and its answer. -/
structure Call (β : Type) where
  request : Request β
  answer : Except ArenaError Nat

/-- An arena, the calls of this generation in their order, and how many blocks were in use after
each operation of all generations. -/
structure Log (β : Type) where
  arena : Arena β
  calls : List (Call β)
  marks : List Nat

/-- The blocks that a call was given. -/
def Call.blocks (c : Call β) : List Nat :=
  match c.answer with
  | .ok offset => List.range' offset c.request.cost
  | .error _ => []

namespace Log

/-- Make a request and write it down. -/
def submit (l : Log β) (q : Request β) : Log β where
  arena := (l.arena.submit q).2
  calls := l.calls ++ [⟨q, (l.arena.submit q).1.map Addr.offset⟩]
  marks := (l.arena.submit q).2.used :: l.marks

/-- The logs that come about. A reset that is refused leaves the arena as it is. -/
inductive Reachable : Log β → Prop
  | create {n : Nat} {gens gens' : Generations} {a : Arena β} :
    Arena.create n gens = .ok (a, gens') → Reachable ⟨a, [], [a.used]⟩
  | submit {l : Log β} {q : Request β} : Reachable l → q.Admissible → Reachable (l.submit q)
  | reset {l : Log β} {gens gens' : Generations} {a : Arena β} :
    Reachable l → l.arena.reset gens = .ok (a, gens') → Reachable ⟨a, [], a.used :: l.marks⟩

/-- The invariant of a log. -/
structure Exact (l : Log β) : Prop where
  used_le : l.arena.used ≤ l.arena.capacity
  /-- The calls of this generation were given the blocks in use, in order. -/
  issued : l.calls.flatMap Call.blocks = List.range l.arena.used
  admissible : ∀ c ∈ l.calls, c.request.Admissible
  current : l.arena.used ∈ l.marks
  highest : IsGreatest { n | n ∈ l.marks } l.arena.highWater
  /-- The generation began with an arena of this capacity that was empty. -/
  began : ∃ start : Arena β, start.capacity = l.arena.capacity ∧ start.used = 0 ∧
    start.serve (l.calls.map Call.request) = (l.calls.map Call.answer, l.arena)

/-- A generation begins. -/
theorem exact_of_empty {a : Arena β} {marks : List Nat} (hu : a.used = 0)
    (hhigh : IsGreatest { n | n ∈ a.used :: marks } a.highWater) :
    Exact ⟨a, [], a.used :: marks⟩ where
  used_le := hu ▸ Nat.zero_le _
  issued := by rw [hu]; rfl
  admissible _ hc := absurd hc List.not_mem_nil
  current := List.mem_cons_self
  highest := hhigh
  began := ⟨a, rfl, hu, rfl⟩

/-- What a request adds to the history of the generation. -/
theorem Exact.began_submit {l : Log β} (h : l.Exact) {q : Request β}
    (hcap : (l.arena.submit q).2.capacity = l.arena.capacity) :
    ∃ start : Arena β, start.capacity = (l.submit q).arena.capacity ∧ start.used = 0 ∧
      start.serve ((l.submit q).calls.map Call.request) =
        ((l.submit q).calls.map Call.answer, (l.submit q).arena) := by
  obtain ⟨start, hstart, hzero, hserve⟩ := h.began
  refine ⟨start, hstart.trans hcap.symm, hzero, ?_⟩
  simp only [submit, List.map_append, List.map_cons, List.map_nil]
  rw [serve_append, hserve]
  rfl

/-- A request that fits is given the blocks behind those in use. -/
theorem Exact.submit_of_fits {l : Log β} (h : l.Exact) {q : Request β} (hq : q.Admissible)
    (hfits : q.cost ≤ l.arena.remaining) : (l.submit q).Exact := by
  have hs := Arena.submit_of_fits hq hfits
  have hused := l.arena.used_filled_store q
  have harena : (l.submit q).arena = _ := congrArg Prod.snd hs
  refine ⟨?_, ?_, ?_, List.mem_cons_self, ?_, h.began_submit (by rw [hs]; rfl)⟩
  · rw [harena, hused]
    change l.arena.used + q.cost ≤ l.arena.capacity
    have hle := h.used_le
    rw [remaining] at hfits
    omega
  · rw [harena, hused, submit, List.flatMap_append, h.issued, List.range_eq_range',
      List.range_eq_range', ← List.range'_append_1, Nat.zero_add, hs]
    simp [Call.blocks, Except.map]
  · intro c hc
    rcases List.mem_append.mp hc with hc | hc
    · exact h.admissible c hc
    · obtain rfl := List.mem_singleton.mp hc
      exact hq
  · have hmarks : (l.submit q).marks = (l.arena.used + q.cost) :: l.marks := by
      rw [submit, hs, hused]
    rw [harena, hmarks]
    change IsGreatest _ (max l.arena.highWater (l.arena.used + q.cost))
    refine ⟨?_, ?_⟩
    · rcases Nat.le_total (l.arena.used + q.cost) l.arena.highWater with hle | hle
      · rw [Nat.max_eq_left hle]
        exact List.mem_cons_of_mem _ h.highest.1
      · rw [Nat.max_eq_right hle]
        exact List.mem_cons_self
    · intro n hn
      rcases List.mem_cons.mp hn with rfl | hn
      · exact Nat.le_max_right _ _
      · exact Nat.le_trans (h.highest.2 hn) (Nat.le_max_left _ _)

/-- A request that does not fit is written down, and that is all. -/
theorem Exact.submit_of_full {l : Log β} (h : l.Exact) {q : Request β} (hq : q.Admissible)
    (hfull : l.arena.remaining < q.cost) : (l.submit q).Exact := by
  have hs := Arena.submit_of_full hq hfull
  have harena : (l.submit q).arena = l.arena := congrArg Prod.snd hs
  refine ⟨?_, ?_, ?_, List.mem_cons_self, ?_, h.began_submit (by rw [hs])⟩
  · rw [harena]
    exact h.used_le
  · rw [harena, submit, List.flatMap_append, h.issued, hs]
    simp [Call.blocks, Except.map]
  · intro c hc
    rcases List.mem_append.mp hc with hc | hc
    · exact h.admissible c hc
    · obtain rfl := List.mem_singleton.mp hc
      exact hq
  · have hmarks : (l.submit q).marks = l.arena.used :: l.marks := by
      rw [submit, hs]
    rw [harena, hmarks]
    refine ⟨List.mem_cons_of_mem _ h.highest.1, ?_⟩
    intro n hn
    rcases List.mem_cons.mp hn with rfl | hn
    · exact h.highest.2 h.current
    · exact h.highest.2 hn

theorem Reachable.exact {l : Log β} (h : l.Reachable) : l.Exact := by
  induction h with
  | create hc =>
    obtain ⟨-, g, -, rfl⟩ := Arena.create_eq_ok hc
    exact exact_of_empty rfl ⟨List.mem_cons_self, fun n hn => (List.mem_singleton.mp hn).le⟩
  | @submit l q _ hq ih =>
    rcases Nat.lt_or_ge l.arena.remaining q.cost with hfull | hfits
    · exact ih.submit_of_full hq hfull
    · exact ih.submit_of_fits hq hfits
  | reset _ hr ih =>
    obtain ⟨g, -, rfl⟩ := Arena.reset_eq_ok hr
    refine exact_of_empty rfl ⟨List.mem_cons_of_mem _ ih.highest.1, ?_⟩
    intro n hn
    rcases List.mem_cons.mp hn with rfl | hn
    · exact Nat.zero_le _
    · exact ih.highest.2 hn

/-- No block was given to two calls. -/
theorem Exact.disjoint {l : Log β} (h : l.Exact) :
    l.calls.Pairwise fun c d => c.blocks.Disjoint d.blocks := by
  have hnodup : (l.calls.flatMap Call.blocks).Nodup := h.issued ▸ List.nodup_range
  exact (List.nodup_flatMap.mp hnodup).2

theorem Exact.lt_capacity {l : Log β} (h : l.Exact) {c : Call β} (hc : c ∈ l.calls) {k : Nat}
    (hk : k ∈ c.blocks) : k < l.arena.capacity := by
  have hmem : k ∈ l.calls.flatMap Call.blocks := List.mem_flatMap.mpr ⟨c, hc, hk⟩
  rw [h.issued, List.mem_range] at hmem
  exact Nat.lt_of_lt_of_le hmem h.used_le

/-- The requests of a generation get the same answers from every empty arena of this capacity. -/
theorem Exact.replay {l : Log β} (h : l.Exact) {a : Arena β}
    (hcap : a.capacity = l.arena.capacity) (hu : a.used = 0) :
    (a.serve (l.calls.map Call.request)).1 = l.calls.map Call.answer := by
  obtain ⟨start, hstart, hzero, hserve⟩ := h.began
  have hadm : ∀ q ∈ l.calls.map Call.request, q.Admissible := by
    intro q hq
    obtain ⟨c, hc, rfl⟩ := List.mem_map.mp hq
    exact h.admissible c hc
  rw [serve_congr (hcap.trans hstart.symm) (hu.trans hzero.symm) hadm, hserve]

end Log

/-- Requests and resets move one cursor. A request of `n` blocks succeeds just if `n` blocks are
left, is given the next ones, and fails without a trace; the blocks issued in a generation are
disjoint, lie in the region and are as many as are in use; requests that fit together are all
served; the high-water mark is the most blocks ever in use; and after a reset the requests of the
generation that ended get the answers that they got. -/
theorem allocation_is_an_exact_bump {l : Log β} (h : l.Reachable) :
    (∀ q : Request β, q.Admissible → l.arena.Bumps q) ∧
      (l.calls.Pairwise fun c d => c.blocks.Disjoint d.blocks) ∧
      (∀ c ∈ l.calls, ∀ k ∈ c.blocks, k < l.arena.capacity) ∧
      l.calls.flatMap Call.blocks = List.range l.arena.used ∧
      (∀ qs : List (Request β), (∀ q ∈ qs, q.Admissible) →
        l.arena.used + (qs.map Request.cost).sum ≤ l.arena.capacity →
          (∀ answer ∈ (l.arena.serve qs).1, ∃ offset, answer = .ok offset) ∧
          (l.arena.serve qs).2.used = l.arena.used + (qs.map Request.cost).sum) ∧
      IsGreatest { n | n ∈ l.marks } l.arena.highWater ∧
      ∀ (a : Arena β) (gens gens' : Generations), l.arena.reset gens = .ok (a, gens') →
        (a.serve (l.calls.map Call.request)).1 = l.calls.map Call.answer := by
  have hexact := h.exact
  refine ⟨fun q hq => l.arena.bumps hq, hexact.disjoint, fun c hc k hk => hexact.lt_capacity hc hk,
    hexact.issued, ?_, hexact.highest, ?_⟩
  · intro qs hqs hsum
    refine serve_of_fits hqs ?_
    rw [remaining]
    omega
  · intro a gens gens' hr
    obtain ⟨g, -, rfl⟩ := reset_eq_ok hr
    exact hexact.replay rfl rfl

/-- A header of five bytes with a tail of eighteen, a request that is too large, a value, and a
slice without values on a full arena of four blocks; then a new generation. -/
theorem allocation_is_an_exact_bump_full :
    ∃ l : Log ByteBlock, l.Reachable ∧ l.arena.used = l.arena.capacity ∧
      l.calls.flatMap Call.blocks = [0, 1, 2, 3] ∧ l.arena.highWater = 4 ∧
      ∃ a gens, l.arena.reset ⟨2⟩ = .ok (a, gens) ∧
        (a.serve [.record (.bytes 5) (.bytes 3) smallHeader sixTriples, .blocks 2,
          .value (.bytes 16) (Vector.replicate 16 7), .slice (.bytes 3) []]).1 =
          [.ok 0, .error (.outOfMemory 2 1 4), .ok 3, .ok 4] := by
  have hc : create 4 {} = .ok ((⟨4, #[], 0, 1⟩ : Arena ByteBlock), ⟨2⟩) := rfl
  have hrecord : (Request.record (.bytes 5) (.bytes 3) smallHeader sixTriples).Admissible :=
    ⟨by decide, by decide, by decide⟩
  have hvalue : (Request.value (.bytes 16) (Vector.replicate 16 7)).Admissible := by
    change 1 ≤ blockSize
    decide
  have hslice : (Request.slice (.bytes 3) []).Admissible := ⟨by decide, by decide⟩
  have h₄ := (((Log.Reachable.create hc).submit hrecord).submit (q := .blocks 2) trivial).submit
    hvalue |>.submit hslice
  obtain ⟨-, -, -, hissued, -, -, hreplay⟩ := allocation_is_an_exact_bump h₄
  refine ⟨_, h₄, ?_, ?_, ?_, _, ⟨3⟩, rfl, (hreplay _ ⟨2⟩ ⟨3⟩ rfl).trans ?_⟩
  · decide +kernel
  · exact hissued.trans (by decide +kernel)
  · decide +kernel
  · decide +kernel

end Arena
end ClosureMachine
