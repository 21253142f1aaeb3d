import ClosureMachine.Proofs.Heap.Linked
import ClosureMachine.Proofs.Heap.Walks

/-!
The depth of a control stack. `Depth heap s n` says that the chain of call frames from `s` can be
walked to its end and has `n` frames. Links lead backwards, so every chain of a linked heap has a
depth, and `CallFrame.chain?` finds exactly that many frames (`Depth.chain?_size`).
-/

namespace ClosureMachine

namespace Heap

inductive Depth (heap : Heap) : Option FrameRef → Nat → Prop
  | empty : Depth heap none 0
  | frame {r : FrameRef} {h : FrameHeader} {n : Nat} :
    r.addr.generation = heap.generation → heap.cell? r.addr.offset = some (.frame h) →
      Depth heap (h.link.resolve heap.generation) n → Depth heap (some r) (n + 1)

variable {heap heap' : Heap} {base n : Nat} {s : Option FrameRef}

/-- A stack with a frame on top goes on below it. -/
theorem Depth.of_some {r : FrameRef} (h : heap.Depth (some r) n) :
    ∃ head k, n = k + 1 ∧ r.addr.generation = heap.generation ∧
      heap.cell? r.addr.offset = some (.frame head) ∧
      heap.Depth (head.link.resolve heap.generation) k := by
  cases h with
  | frame hg hc hd => exact ⟨_, _, rfl, hg, hc, hd⟩

theorem Depth.mono (h : heap.Depth s n) (hk : heap.Keeps base heap') : heap'.Depth s n := by
  induction h with
  | empty => exact .empty
  | frame hg hc _ ih =>
    refine .frame (hg.trans hk.generation.symm) (hk.record _ _ hc rfl) ?_
    rw [hk.generation]
    exact ih

theorem Depth.unique {n' : Nat} (h : heap.Depth s n) (h' : heap.Depth s n') : n = n' := by
  induction h generalizing n' with
  | empty =>
    cases h'
    rfl
  | frame _ hc _ ih =>
    cases h' with
    | frame _ hc' hd =>
      rw [hc] at hc'
      cases hc'
      rw [ih hd]

/-- Every frame of a linked heap has a depth. -/
theorem Linked.exists_depth (hl : heap.Linked base) :
    ∀ (o : Nat) (r : FrameRef), r.addr.offset = o → heap.HoldsFrame base heap.used r →
      ∃ n, heap.Depth (some r) n := by
  intro o
  induction o using Nat.strongRecOn with
  | ind o ih =>
    intro r ho hr
    obtain ⟨head, hc⟩ := hr.stored
    have hlink := (hl.link _ _ hr.base_le hc).2
    cases hn : (head.link.resolve heap.generation : Option FrameRef) with
    | none =>
      refine ⟨0 + 1, .frame hr.generation hc ?_⟩
      rw [hn]
      exact .empty
    | some below =>
      have hb := hlink below hn
      have hlt := hb.lt_bound
      obtain ⟨n, hd⟩ := ih below.addr.offset (by omega) below rfl
        (hb.mono (Keeps.refl _ _) (Nat.le_of_lt hr.lt_bound))
      refine ⟨n + 1, .frame hr.generation hc ?_⟩
      rw [hn]
      exact hd

/-- The walk along a stack with a depth meets that many frames, all of them readable. -/
theorem Depth.walk (hl : heap.Linked base) (h : heap.Depth s n)
    (hs : ∀ r ∈ s, base ≤ r.addr.offset) :
    ∃ rest, heap.Walk s rest ∧ rest.length = n ∧
      ∀ r ∈ rest, r.addr.generation = heap.generation ∧
        ∃ head, heap.cell? r.addr.offset = some (.frame head) := by
  induction h with
  | empty => exact ⟨[], .done, rfl, nofun⟩
  | @frame r head n hg hc _ ih =>
    have hr : base ≤ r.addr.offset := hs r rfl
    have hlink := (hl.link _ _ hr hc).2
    obtain ⟨rest, hw, hlen, hall⟩ := ih fun r' hr' => (hlink r' hr').base_le
    refine ⟨r :: rest, .frame (hl.load_frame hr hg hc) hw, by simp [hlen], ?_⟩
    intro r' hr'
    rcases List.mem_cons.mp hr' with rfl | hmem
    · exact ⟨hg, head, hc⟩
    · exact hall r' hmem

/-- Walking a chain counts its depth. -/
theorem Depth.chain?_size (hl : heap.Linked base) (h : heap.Depth s n)
    (hs : ∀ r ∈ s, base ≤ r.addr.offset) : (CallFrame.chain? heap s).map Array.size = some n := by
  obtain ⟨rest, hw, hlen, -⟩ := h.walk hl hs
  rw [CallFrame.chain?_size_of_walk hw, hlen]

/-- The frames of a stack of a linked heap are counted. -/
theorem Linked.exists_counted (hl : heap.Linked base)
    (hs : ∀ r ∈ s, heap.HoldsFrame base heap.used r) :
    ∃ n, heap.Depth s n ∧ (CallFrame.chain? heap s).map Array.size = some n := by
  cases s with
  | none => exact ⟨0, .empty, by rw [CallFrame.chain?_none]; rfl⟩
  | some r =>
    obtain ⟨n, hd⟩ := hl.exists_depth _ r rfl (hs r rfl)
    exact ⟨n, hd, hd.chain?_size hl fun r' hr' => (hs r' hr').base_le⟩

theorem held_of_read (hs : ∀ r ∈ s, r.addr.generation = heap.generation ∧
      ∃ head, heap.cell? r.addr.offset = some (.frame head)) :
    ∀ r ∈ s, heap.HoldsFrame 0 heap.used r := by
  intro r hr
  obtain ⟨hg, head, hc⟩ := hs r hr
  exact ⟨hg, Nat.zero_le _, Heap.cell?_lt hc, head, hc⟩

/-- So are those of any stack, if the whole heap is linked. -/
theorem Linked.counted (hl : heap.Linked 0) (s : Option FrameRef) :
    ∃ n, (CallFrame.chain? heap s).map Array.size = some n := by
  by_cases hs : ∀ r ∈ s, r.addr.generation = heap.generation ∧
      ∃ head, heap.cell? r.addr.offset = some (.frame head)
  · obtain ⟨n, -, hn⟩ := hl.exists_counted (held_of_read hs)
    exact ⟨n, hn⟩
  · cases s with
    | none => exact absurd nofun hs
    | some r =>
      have hr : CallFrame.load? heap r = none :=
        load_frame_eq_none fun hread => hs (by rintro _ ⟨⟩; exact hread)
      exact ⟨0, by rw [CallFrame.chain?_of_unread hr]; rfl⟩

end Heap

end ClosureMachine
