import Mathlib.Logic.Relation
import ClosureMachine.Proofs.Arena.Epochs
import ClosureMachine.Proofs.Heap.Linked

/-!
Call frames and environment frames as stored records: a head in one block, and behind it one block
for each value. The head keeps its references as links and the number of its values in one word.
Neither loses anything. A link is read back with the generation of the record, which is that of the
reference (`resolve_of_current`), and more values than a word can count do not fit into any arena,
so that the length is exact whenever there is a record at all.

A ledger (see `Ledger.Move`) lists all that the arena has issued in this generation, with the
contents last written through each handle. `frames_decode_to_what_was_encoded` says that a frame
reads back as it was given, at any later time, until something else is assigned through its handle.
-/

namespace ClosureMachine

namespace Kind

/-- Values of the machine. -/
abbrev value : Kind Cell where
  carrier := Value

/-- Heads of environment frames. -/
abbrev environment : Kind Cell where
  carrier := EnvHeader

/-- Heads of call frames. -/
abbrev frame : Kind Cell where
  carrier := FrameHeader

end Kind

/-- The `n` values behind the head at `r`. -/
def Ref.slots {η : Type} (r : Ref η) (n : Nat) : Slice Value :=
  ⟨r.addr.offset + 1, n, r.addr.generation⟩

/-- The head of a record. -/
def Entry.head (k : Kind Cell) (r : Ref k.carrier) (x : k.carrier) : Entry Cell :=
  ⟨.value k r, x⟩

/-- The values of a record. -/
def Entry.tail {η : Type} (r : Ref η) (vs : List Value) : Entry Cell :=
  ⟨.slice .value (r.slots vs.length), vs⟩

/-! ## What a ledger goes on listing -/

namespace Ledger

variable {l l' : Ledger Cell} {e : Entry Cell}

/-- `l'` comes after `l` in the same generation. -/
abbrev Later : Ledger Cell → Ledger Cell → Prop := Relation.ReflTransGen Move

/-- No other contents than those of `e` are listed for its handle. -/
def Unassigned (l : Ledger Cell) (e : Entry Cell) : Prop :=
  ∀ x, ⟨e.handle, x⟩ ∈ l.entries → x = e.contents

theorem Reachable.later (h : l.Reachable) (hl : l.Later l') : l'.Reachable := by
  induction hl with
  | refl => exact h
  | tail _ hm ih => exact ih.move hm

theorem Reachable.handle_later (h : l.Reachable) (hl : l.Later l') {x : Handle Cell}
    (hx : x ∈ l.handles) : x ∈ l'.handles := by
  induction hl with
  | refl => exact hx
  | tail hl hm ih => exact (hm.keeps (h.later hl).sound).2 x ih

/-- An entry remains listed until it is assigned to. -/
theorem Reachable.listed (h : l.Reachable) (hl : l.Later l') (he : e ∈ l.entries)
    (hu : l'.Unassigned e) : e ∈ l'.entries := by
  obtain ⟨⟨handle, x⟩, hx, hhandle⟩ :=
    List.mem_map.mp (h.handle_later hl (List.mem_map_of_mem he))
  cases hhandle
  rwa [hu x hx] at hx

/-- Only handles without blocks are issued twice, so an entry that has blocks is the only one for
its handle. -/
theorem Reachable.unassigned (h : l.Reachable) (he : e ∈ l.entries) (hb : 0 < e.handle.blocks) :
    l.Unassigned e := by
  obtain ⟨handle, contents⟩ := e
  intro x hx
  obtain ⟨i, hi, he⟩ := List.mem_iff_getElem.mp he
  obtain ⟨j, hj, hx⟩ := List.mem_iff_getElem.mp hx
  have hbehind := List.pairwise_iff_getElem.mp h.sound.behind
  have hstop : ¬ handle.stop ≤ handle.addr.offset := by
    have hb : 0 < handle.blocks := hb
    rw [Handle.stop]
    omega
  rcases Nat.lt_trichotomy i j with hij | rfl | hij
  · have hb' := hbehind i j hi hj hij
    rw [he, hx] at hb'
    exact absurd hb' hstop
  · rw [he] at hx
    cases hx
    rfl
  · have hb' := hbehind j i hj hi hij
    rw [he, hx] at hb'
    exact absurd hb' hstop

/-- The ledger after a record has been stored. -/
def withRecord (l : Ledger Cell) (heap : Heap) {k : Kind Cell} (r : Ref k.carrier) (x : k.carrier)
    (vs : List Value) : Ledger Cell :=
  ⟨heap, Entry.tail r vs :: Entry.head k r x :: l.entries⟩

section Record

variable {k : Kind Cell} {r : Ref k.carrier} {x : k.carrier} {vs : List Value} {heap : Heap}

/-- Storing a record is one of the operations of a ledger. The tail of the handle is clamped to a
word, but the record lies below that. -/
theorem Reachable.move_withRecord (h : l.Reachable) (hk : Storable.blocks Cell k.carrier 1 = 1)
    (hok : l.arena.allocWithTail x vs = (.ok r, heap)) (hr : r.addr.offset = l.arena.used)
    (hfit : l.arena.used + 1 + vs.length ≤ l.arena.capacity) :
    l.Move (l.withRecord heap r x vs) := by
  have hw := h.sound.capacity_lt
  have htail : r.tail Cell Value vs.length = r.slots vs.length :=
    Heap.tail_eq hk (by rw [hr]; omega)
  have hall : vs.take (wordLimit - 1) = vs := List.take_of_length_le (by omega)
  have hentry : (⟨.slice .value (r.tail Cell Value vs.length), vs.take (wordLimit - 1)⟩ :
      Entry Cell) = Entry.tail r vs := by
    rw [Entry.tail, ← htail]
    exact congrArg (fun xs => (⟨.slice .value (r.tail Cell Value vs.length), xs⟩ : Entry Cell)) hall
  have hmove := Move.allocWithTail l.arena l.entries k .value x vs
  rw [hok] at hmove
  simp only [issued, List.cons_append, List.nil_append] at hmove
  rwa [hentry] at hmove

/-- A record that has been stored lies where the next run was due and ends below the largest word,
so that its head has the exact length. -/
theorem Reachable.record_ok (h : l.Reachable) (hk : Storable.blocks Cell k.carrier 1 = 1)
    (head : Nat → k.carrier)
    (hok : l.arena.allocWithTail (head (min vs.length (wordLimit - 1))) vs = (.ok r, heap)) :
    r.addr = ⟨l.arena.used, l.arena.generation⟩ ∧
      l.arena.used + 1 + vs.length ≤ l.arena.capacity ∧
      l.Move (l.withRecord heap r (head vs.length) vs) := by
  have hw := h.sound.capacity_lt
  rcases l.arena.allocWithTail_cases (head (min vs.length (wordLimit - 1))) vs
    with ⟨e, he⟩ | ⟨n, hsum, hn, he⟩
  · rw [he] at hok
    cases hok
  · have haddr : r.addr = ⟨l.arena.used, l.arena.generation⟩ := by
      rw [he] at hok
      cases hok
      rfl
    have hroom : l.arena.used + 1 + vs.length ≤ l.arena.capacity := by
      rw [hk, Heap.blocks_value] at hsum
      rw [Arena.remaining] at hn
      omega
    rw [Nat.min_eq_left (by omega)] at hok
    exact ⟨haddr, hroom, h.move_withRecord hk hok (congrArg Addr.offset haddr) hroom⟩

/-- The head of a record is found as long as it is not assigned to. -/
theorem Reachable.get?_later (h : (l.withRecord heap r x vs).Reachable)
    (hl : (l.withRecord heap r x vs).Later l') (hu : l'.Unassigned (Entry.head k r x)) :
    l'.arena.get? r = some x := by
  have hmem : Entry.head k r x ∈ (l.withRecord heap r x vs).entries :=
    List.mem_cons_of_mem _ List.mem_cons_self
  exact ((h.later hl).sound.placed _ (h.listed hl hmem hu)).reads.1

/-- And so are its values. -/
theorem Reachable.slice?_later (h : (l.withRecord heap r x vs).Reachable)
    (hl : (l.withRecord heap r x vs).Later l') (hu : l'.Unassigned (Entry.tail r vs)) :
    l'.arena.slice? (r.slots vs.length) = some vs :=
  ((h.later hl).sound.placed _ (h.listed hl List.mem_cons_self hu)).reads.1

end Record

end Ledger

/-! ## References in a head -/

/-- Nothing, or a reference to something in use in this generation. -/
def Arena.Current {β η : Type} (a : Arena β) (target : Option (Ref η)) : Prop :=
  ∀ r ∈ target, a.isLive r.addr 1 = true

/-- A link leads back to the reference it was made from. -/
theorem Heap.resolve_of_current {heap : Heap} (hu : heap.used ≤ heap.capacity)
    (hw : heap.capacity < wordLimit) {η : Type} {target : Option (Ref η)}
    (h : heap.Current target) : (Link.ofRef? target).resolve heap.generation = target := by
  cases target with
  | none => rfl
  | some r =>
    have hr := h r rfl
    simp only [Arena.isLive, Bool.and_eq_true, beq_iff_eq, decide_eq_true_eq] at hr
    rw [← hr.1]
    exact Link.resolve_ofRef? (by omega)

/-! ## Frames -/

section Frames

variable {heap : Heap}

/-- How a call frame is put together from its head. -/
theorem CallFrame.load?_of_get? {top : FrameRef} {returnTo : NodeId} {env : Option EnvRef}
    {link : Option FrameRef} {n : Nat}
    (hget : heap.get? top = some ⟨returnTo, .ofRef? env, .ofRef? link, n⟩)
    (hend : top.addr.offset + 1 + n ≤ wordLimit - 1)
    (henv : (Link.ofRef? env).resolve top.addr.generation = env)
    (hlink : (Link.ofRef? link).resolve top.addr.generation = link) :
    load? heap top = some ⟨returnTo, env, top.slots n, link⟩ := by
  have htail : top.tail Cell Value n = top.slots n := Heap.tail_eq rfl hend
  simp only [load?, hget, Option.map_some, henv, hlink, htail]

theorem EnvFrame.load?_of_get? {env : EnvRef} {names : FormalsId} {parent : Option EnvRef} {n : Nat}
    (hget : heap.get? env = some ⟨names, .ofRef? parent, n⟩)
    (hend : env.addr.offset + 1 + n ≤ wordLimit - 1)
    (hparent : (Link.ofRef? parent).resolve env.addr.generation = parent) :
    load? heap env = some ⟨names, env.slots n, parent⟩ := by
  have htail : env.tail Cell Value n = env.slots n := Heap.tail_eq rfl hend
  simp only [load?, hget, Option.map_some, hparent, htail]

end Frames

namespace Ledger

variable {l l' : Ledger Cell} {heap : Heap}

theorem Reachable.push_ok (h : l.Reachable) {returnTo : NodeId} {env : Option EnvRef}
    {rib : List Value} {link : Option FrameRef} {top : FrameRef}
    (hok : CallFrame.push l.arena returnTo env rib link = (.ok top, heap)) :
    top.addr = ⟨l.arena.used, l.arena.generation⟩ ∧
      l.arena.used + 1 + rib.length ≤ l.arena.capacity ∧
      l.Move (l.withRecord (k := .frame) heap top
        ⟨returnTo, .ofRef? env, .ofRef? link, rib.length⟩ rib) :=
  h.record_ok (k := .frame) rfl (FrameHeader.mk returnTo (.ofRef? env) (.ofRef? link)) hok

theorem Reachable.bind_ok (h : l.Reachable) {names : FormalsId} {values : List Value}
    {parent : Option EnvRef} {env : EnvRef}
    (hok : EnvFrame.bind l.arena names values parent = (.ok env, heap)) :
    env.addr = ⟨l.arena.used, l.arena.generation⟩ ∧
      l.arena.used + 1 + values.length ≤ l.arena.capacity ∧
      l.Move (l.withRecord (k := .environment) heap env
        ⟨names, .ofRef? parent, values.length⟩ values) :=
  h.record_ok (k := .environment) rfl (EnvHeader.mk names (.ofRef? parent)) hok

end Ledger

/-- Call frames and environment frames read back as they were stored. Storing fails only for want
of blocks, and then changes nothing. Otherwise, at any later time, the frame is found with its
references and the exact number of its values, and the values are those that were stored unless
others were assigned. -/
theorem frames_decode_to_what_was_encoded {l : Ledger Cell} (h : l.Reachable) :
    (∀ (returnTo : NodeId) (env : Option EnvRef) (rib : List Value) (link : Option FrameRef),
      l.arena.Current env → l.arena.Current link →
      l.arena.remaining < rib.length + 1 ∧
        CallFrame.push l.arena returnTo env rib link =
          (.error (.outOfMemory (Heap.requested rib.length) l.arena.remaining l.arena.capacity),
            l.arena) ∨
      rib.length + 1 ≤ l.arena.remaining ∧
        ∃ (top : FrameRef) (heap : Heap) (head : FrameHeader),
          CallFrame.push l.arena returnTo env rib link = (.ok top, heap) ∧
          head = ⟨returnTo, .ofRef? env, .ofRef? link, rib.length⟩ ∧
          l.Move (l.withRecord (k := .frame) heap top head rib) ∧
          ∀ l', (l.withRecord (k := .frame) heap top head rib).Later l' →
            (l'.Unassigned (.head .frame top head) →
              CallFrame.load? l'.arena top = some ⟨returnTo, env, top.slots rib.length, link⟩) ∧
            (l'.Unassigned (.tail top rib) →
              l'.arena.slice? (top.slots rib.length) = some rib)) ∧
    ∀ (names : FormalsId) (values : List Value) (parent : Option EnvRef),
      l.arena.Current parent →
      l.arena.remaining < values.length + 1 ∧
        EnvFrame.bind l.arena names values parent =
          (.error (.outOfMemory (Heap.requested values.length) l.arena.remaining l.arena.capacity),
            l.arena) ∨
      values.length + 1 ≤ l.arena.remaining ∧
        ∃ (env : EnvRef) (heap : Heap) (head : EnvHeader),
          EnvFrame.bind l.arena names values parent = (.ok env, heap) ∧
          head = ⟨names, .ofRef? parent, values.length⟩ ∧
          l.Move (l.withRecord (k := .environment) heap env head values) ∧
          ∀ l', (l.withRecord (k := .environment) heap env head values).Later l' →
            (l'.Unassigned (.head .environment env head) →
              EnvFrame.load? l'.arena env = some ⟨names, env.slots values.length, parent⟩) ∧
            (l'.Unassigned (.tail env values) →
              l'.arena.slice? (env.slots values.length) = some values) := by
  have hu := h.sound.used_le
  have hw := h.sound.capacity_lt
  constructor
  · intro returnTo env rib link henv hlink
    have hpush := Heap.push_eq hw returnTo env rib link
    rcases Nat.lt_or_ge l.arena.remaining (rib.length + 1) with hfull | hfit
    · exact .inl ⟨hfull, by rw [hpush, if_pos hfull]⟩
    rw [if_neg (Nat.not_lt.mpr hfit)] at hpush
    obtain ⟨-, hroom, hmove⟩ := h.push_ok hpush
    refine .inr ⟨hfit, _, _, _, hpush, rfl, hmove, fun l' hl => ⟨fun hhead => ?_, ?_⟩⟩
    · exact CallFrame.load?_of_get? ((h.move hmove).get?_later hl hhead)
        (Nat.le_sub_one_of_lt (Nat.lt_of_le_of_lt hroom hw))
        (Heap.resolve_of_current hu hw henv) (Heap.resolve_of_current hu hw hlink)
    · exact (h.move hmove).slice?_later hl
  · intro names values parent hparent
    have hbind := Heap.bind_eq hw names values parent
    rcases Nat.lt_or_ge l.arena.remaining (values.length + 1) with hfull | hfit
    · exact .inl ⟨hfull, by rw [hbind, if_pos hfull]⟩
    rw [if_neg (Nat.not_lt.mpr hfit)] at hbind
    obtain ⟨-, hroom, hmove⟩ := h.bind_ok hbind
    refine .inr ⟨hfit, _, _, _, hbind, rfl, hmove, fun l' hl => ⟨fun hhead => ?_, ?_⟩⟩
    · exact EnvFrame.load?_of_get? ((h.move hmove).get?_later hl hhead)
        (Nat.le_sub_one_of_lt (Nat.lt_of_le_of_lt hroom hw))
        (Heap.resolve_of_current hu hw hparent)
    · exact (h.move hmove).slice?_later hl

/-- A ledger with one environment frame, which binds one value. -/
def oneBinding : Ledger Cell :=
  ⟨⟨8, #[.environment ⟨0, .none, 1⟩, .value (.int 7)], 2, 1⟩,
    [.tail (⟨⟨0, 1⟩⟩ : EnvRef) [.int 7], .head .environment ⟨⟨0, 1⟩⟩ ⟨0, .none, 1⟩]⟩

theorem oneBinding_reachable : oneBinding.Reachable := by
  have hc : Arena.create 8 {} = .ok ((⟨8, #[], 0, 1⟩ : Heap), ⟨2⟩) := rfl
  have hok : (⟨8, #[], 0, 1⟩ : Heap).allocWithTail (⟨0, .none, 1⟩ : EnvHeader) [Value.int 7] =
      (.ok ⟨⟨0, 1⟩⟩, oneBinding.arena) := rfl
  have h := Ledger.Reachable.create hc
  exact h.move (h.move_withRecord (k := .environment) rfl hok rfl (by decide))

/-- The same heap with a call frame of two saved arguments inside that environment. -/
def oneFrame : Heap :=
  ⟨8, #[.environment ⟨0, .none, 1⟩, .value (.int 7), .frame ⟨3, ⟨1⟩, .none, 2⟩, .value .nil,
    .value (.int 5)], 5, 1⟩

/-- The bound value is assigned to after the frame was pushed, and a closure is stored behind it;
the frame remains as it was pushed. -/
theorem frames_decode_to_what_was_encoded_nested :
    oneBinding.Reachable ∧ oneBinding.arena.Current (some (⟨⟨0, 1⟩⟩ : EnvRef)) ∧
      CallFrame.push oneBinding.arena 3 (some ⟨⟨0, 1⟩⟩) [.nil, .int 5] none =
        (.ok ⟨⟨2, 1⟩⟩, oneFrame) ∧
      ∃ l' : Ledger Cell,
        (oneBinding.withRecord (k := .frame) oneFrame ⟨⟨2, 1⟩⟩ ⟨3, ⟨1⟩, .none, 2⟩
          [.nil, .int 5]).Later l' ∧
        l'.arena.slice? ⟨1, 1, 1⟩ = some [Value.int 8] ∧ l'.arena.used = 6 ∧
        CallFrame.load? l'.arena ⟨⟨2, 1⟩⟩ = some ⟨3, some ⟨⟨0, 1⟩⟩, ⟨3, 2, 1⟩, none⟩ ∧
        l'.arena.slice? ⟨3, 2, 1⟩ = some [Value.nil, .int 5] := by
  have henv : oneBinding.arena.Current (some (⟨⟨0, 1⟩⟩ : EnvRef)) := by
    rintro r ⟨⟩
    rfl
  have hpushed : CallFrame.push oneBinding.arena 3 (some ⟨⟨0, 1⟩⟩) [.nil, .int 5] none =
      (.ok ⟨⟨2, 1⟩⟩, oneFrame) := rfl
  refine ⟨oneBinding_reachable, henv, hpushed, ?_⟩
  rcases (frames_decode_to_what_was_encoded oneBinding_reachable).1 3 (some ⟨⟨0, 1⟩⟩)
    [.nil, .int 5] none henv (fun r hr => nomatch hr)
    with ⟨hfull, -⟩ | ⟨-, top, heap, head, hpush, rfl, hmove, hlater⟩
  · exact absurd hfull (by decide)
  cases hpushed.symm.trans hpush
  have hassign := Ledger.Move.setAt oneFrame
    [.tail (⟨⟨2, 1⟩⟩ : FrameRef) [.nil, .int 5], .head .frame ⟨⟨2, 1⟩⟩ ⟨3, ⟨1⟩, .none, 2⟩]
    [.head .environment ⟨⟨0, 1⟩⟩ ⟨0, .none, 1⟩] .value ⟨1, 1, 1⟩ [.int 7] 0 (.int 8)
  have hl := (Relation.ReflTransGen.single hassign).tail (.alloc _ _ ⟨Closure⟩ ⟨0, 0, none⟩)
  have hreach := (oneBinding_reachable.move hmove).later hl
  obtain ⟨hload, hslice⟩ := hlater _ hl
  refine ⟨_, hl, rfl, rfl, hload (hreach.unassigned ?_ Nat.one_pos),
    hslice (hreach.unassigned ?_ Nat.two_pos)⟩
  · exact List.mem_append_right _ (List.mem_cons_of_mem _ List.mem_cons_self)
  · exact List.mem_append_right _ List.mem_cons_self

end ClosureMachine
