import ClosureMachine.Proofs.Machine.Scoped
import ClosureMachine.Proofs.Machine.StaleStacks

/-!
Assignment changes one binding. Under a careful host an assignment that succeeds writes the slot of
the innermost frame that binds the variable (`SlotAssigned`), or else the global of that name, which
must exist (`GlobalAssigned`). Nothing else in the machine changes but the position and the count of
instructions, and only lookups that come to this binding see it
(`assignment_changes_one_binding`).

The host has to be careful because a control stack of an earlier epoch leads anywhere in the current
one. A frame is then read from blocks that hold something else, and with it an environment to write
to; the cells of this heap refuse such a read, an arena of bytes does not.
-/

namespace ClosureMachine

namespace Machine

variable {m m' : Machine} {code : Code} {var : SymbolId} {v : Value}

/-- The machine in another environment. -/
def within (m : Machine) (env : Option EnvRef) : Machine :=
  { m with regs := { m.regs with e := env } }

/-- The slot that `var` has in the current environment has been given the value `v`. -/
structure SlotAssigned (m : Machine) (code : Code) (var : SymbolId) (v : Value) (r : EnvRef)
    (i : Nat) (m' : Machine) : Prop where
  innermost : m.heap.Binds code var m.regs.e r i
  heap : m.heap.SlotSet r i v m'.heap
  globals : m'.globals = m.globals
  /-- A lookup that comes to this slot, by whatever name, environment and code. -/
  found : ∀ code env name, m.heap.Binds code name env r i →
    (m'.within env).lookup code name = .ok v
  other : ∀ code env name, ¬ m.heap.Binds code name env r i →
    (m'.within env).lookup code name = (m.within env).lookup code name

/-- The global `var` has been given the value `v`. -/
structure GlobalAssigned (m : Machine) (code : Code) (var : SymbolId) (v : Value)
    (m' : Machine) : Prop where
  unbound : m.heap.Unbound code var m.regs.e
  existed : ∃ w, m.globals.get? var = some w
  heap : m'.heap = m.heap
  written : m'.globals.get? var = some v
  others : ∀ name, name ≠ var → m'.globals.get? name = m.globals.get? name
  /-- A lookup that comes to this global, in whatever environment and code. -/
  found : ∀ code env, m.heap.Unbound code var env → (m'.within env).lookup code var = .ok v
  other : ∀ code env name, ¬ (name = var ∧ m.heap.Unbound code name env) →
    (m'.within env).lookup code name = (m.within env).lookup code name

/-! ## What lookups see -/

section Slot

variable {r : EnvRef} {i : Nat} (hs : m.heap.SlotSet r i v m'.heap)
include hs

/-- A write to a slot moves no binding. -/
theorem find_of_slotSet (code : Code) (env : Option EnvRef) (name : SymbolId) :
    Binding.find m'.heap code env name = Binding.find m.heap code env name :=
  Binding.find_congr hs.environments hs.used code env name

theorem lookup_slot_found (hd : m.heap.Descends) {f : EnvFrame}
    (hf : EnvFrame.load? m.heap r = some f) (hi : i < f.values.length) {env : Option EnvRef}
    {name : SymbolId} (hb : m.heap.Binds code name env r i) :
    (m'.within env).lookup code name = .ok v := by
  have hfind : Binding.find (m'.within env).heap code (m'.within env).regs.e name =
      .slot f.values i :=
    (find_of_slotSet hs code env name).trans ((Heap.find_eq_slot_iff hd).mpr ⟨r, f, hb, hf, rfl⟩)
  obtain ⟨vs, hlen, -, hslice⟩ := hs.slots r f hf
  have hread : ((m'.within env).heap.slice? f.values).bind (·[i]?) = some v := by
    change (m'.heap.slice? f.values).bind (·[i]?) = some v
    rw [hslice, if_pos rfl, Option.bind_some, List.getElem?_set_self (hlen ▸ hi)]
  simp only [lookup, hfind, hread]

theorem lookup_slot_other (hg : m'.globals = m.globals) {env : Option EnvRef} {name : SymbolId}
    (hb : ¬ m.heap.Binds code name env r i) :
    (m'.within env).lookup code name = (m.within env).lookup code name := by
  have hfind : Binding.find (m'.within env).heap code (m'.within env).regs.e name =
      Binding.find (m.within env).heap code (m.within env).regs.e name :=
    find_of_slotSet hs code env name
  cases hsearch : Binding.find (m.within env).heap code (m.within env).regs.e name with
  | slot s j =>
    obtain ⟨r', f, hb', hf, rfl⟩ := Heap.search_sound.1 s j hsearch
    obtain ⟨vs, -, hold, hnew⟩ := hs.slots r' f hf
    have hread : ((m'.within env).heap.slice? f.values).bind (·[j]?) =
        ((m.within env).heap.slice? f.values).bind (·[j]?) := by
      change (m'.heap.slice? f.values).bind (·[j]?) = (m.heap.slice? f.values).bind (·[j]?)
      rw [hold, hnew]
      split
      · next heq =>
        subst heq
        have hne : i ≠ j := fun hij => hb (hij ▸ hb')
        rw [Option.bind_some, Option.bind_some, List.getElem?_set_ne hne]
      · rfl
    simp only [lookup, hfind, hsearch, hread]
  | free =>
    have hglobals : (m'.within env).globals = (m.within env).globals := hg
    simp only [lookup, hfind, hsearch, hglobals]
  | broken => simp only [lookup, hfind, hsearch]
  | endless => simp only [lookup, hfind, hsearch]

end Slot

/-! ## Assignments that succeed -/

theorem assign_eq_ok (h : m.assign code var v = (.ok (), m')) :
    (∃ s i heap, Binding.find m.heap code m.regs.e var = .slot s i ∧
        m.heap.setAt s i v = (.ok (), heap) ∧ m' = { m with heap }) ∨
      ∃ globals, Binding.find m.heap code m.regs.e var = .free ∧
        m.globals.set? var v = some globals ∧ m' = { m with globals } := by
  unfold assign at h
  split at h
  · next s i hfind =>
    split at h
    · next heap hset =>
      cases h
      exact .inl ⟨s, i, heap, hfind, hset, rfl⟩
    · cases h
  · next hfind =>
    split at h
    · next globals hset =>
      cases h
      exact .inr ⟨globals, hfind, hset, rfl⟩
    · cases h
  · cases h
  · cases h

theorem Scoped.slotAssigned (h : m.Scoped) {s : Slice Value} {i : Nat} {heap : Heap}
    (hfind : Binding.find m.heap code m.regs.e var = .slot s i)
    (hset : m.heap.setAt s i v = (.ok (), heap)) :
    ∃ r, m.SlotAssigned code var v r i { m with heap } := by
  obtain ⟨r, f, hb, hf, rfl⟩ := Heap.search_sound.1 s i hfind
  have hl : m.heap.unlinked.Linked 0 := h.rooted.linked
  rcases Heap.setAt_eq m.heap f.values i v with ⟨heq, hi, -, -⟩ | ⟨⟨e, herr⟩, -⟩
  · have hoffset : f.values.offset = r.addr.offset + 1 := by
      obtain ⟨c, -, -, hs⟩ := Heap.run_of_load_env hl hf
      rw [hs]
    rw [hset, hoffset] at heq
    cases heq
    have hslot := Heap.slotSet_setValue hl hf hi v
    refine ⟨r, hb, hslot, rfl, ?_, ?_⟩
    · intro code env name hb'
      exact @lookup_slot_found _ { m with heap := _ } _ _ _ _ hslot h.descends _ hf hi _ _ hb'
    · intro code env name hb'
      exact @lookup_slot_other _ { m with heap := _ } _ _ _ _ hslot rfl _ _ hb'
  · rw [hset] at herr
    cases herr

theorem Scoped.globalAssigned (h : m.Scoped) {globals : Globals}
    (hfind : Binding.find m.heap code m.regs.e var = .free)
    (hset : m.globals.set? var v = some globals) :
    m.GlobalAssigned code var v { m with globals } := by
  have hget : ∀ name, globals.get? name = if name = var then some v else m.globals.get? name :=
    fun _ => Globals.get?_of_set? hset
  have hwritten : globals.get? var = some v := by rw [hget, if_pos rfl]
  have hothers : ∀ name, name ≠ var → globals.get? name = m.globals.get? name :=
    fun name hne => by rw [hget, if_neg hne]
  refine ⟨(Heap.find_eq_free_iff h.descends).mp hfind, ?_, rfl, hwritten, hothers, ?_, ?_⟩
  · rw [← Option.ne_none_iff_exists']
    intro hnone
    rw [(Globals.set?_eq_none_iff _ _ _).mpr hnone] at hset
    cases hset
  · intro code env hu
    have hfree := (Heap.find_eq_free_iff h.descends).mpr hu
    simp only [lookup, within, hfree, hwritten]
  · intro code env name hne
    simp only [lookup, within]
    split
    · rfl
    · next hfree =>
      have hunbound := (Heap.find_eq_free_iff h.descends).mp hfree
      rw [hothers name fun heq => hne ⟨heq, hunbound⟩]
    · rfl
    · rfl

/-- A step over an assignment that succeeds is the assignment. -/
theorem step_assign_eq_ok {next : NodeId} {p : Progress}
    (hn : code.node? m.regs.x = some (.assign var next)) (h : m.step code = (.ok p, m')) :
    p = .running ∧ ∃ m₁, m.tick.assign code var m.regs.a = (.ok (), m₁) ∧ m' = m₁.goto next := by
  cases hl : m.exhaustedLimit? with
  | some limit =>
    rw [step, hl] at h
    cases h
  | none =>
    rw [step_eq_execute hl hn] at h
    change andGoto next (m.tick.assign code var m.regs.a) = _ at h
    rcases hassign : m.tick.assign code var m.regs.a with ⟨e | u, m₁⟩
    · rw [hassign] at h
      cases h
    · rw [hassign] at h
      cases h
      exact ⟨rfl, m₁, rfl, rfl⟩

end Machine

theorem Host.Reachable.machine {allowed : Machine → Code → Prop} {h : Host}
    (hr : h.Reachable allowed) : h.machine.Reachable := by
  induction hr with
  | create _ hc => exact .create hc
  | move _ hm ih =>
    cases hm with
    | start entry => exact ih.start entry
    | step code _ _ => exact ih.step code
    | reset hreset => exact ih.reset hreset
    | take _ => exact ih
    | adjust globals primitives limit => exact ih.adjust globals primitives limit
    | elsewhere _ => exact ih

/-- Calls a procedure of one argument, which assigns to it. -/
def assignCode : Code where
  nodes := #[.constant (.int 5) 1, .argument 2, .close 0 4 3, .apply, .constant (.int 6) 5,
    .assign 7 6, .halt]
  formals := #[[7]]

/-- The procedure is about to assign. -/
def assigningMachine : Machine where
  heap := ⟨16, #[.closure ⟨0, 4, none⟩, .environment ⟨0, ⟨0⟩, 1⟩, .value (.int 5)], 3, 1⟩
  regs := { a := .int 6, x := 5, e := some ⟨⟨1, 1⟩⟩ }
  stats := { instructions := 5 }

def assigningHost : Host := ⟨assigningMachine, ⟨2⟩, [], []⟩

theorem assigningHost_reachable : assigningHost.Reachable Machine.Careful := by
  have hcode : ∀ x f var, assignCode.node? x = some (.nuate (some f) var) →
      some f ∈ ([] : List (Option FrameRef)) := by
    rintro (_ | _ | _ | _ | _ | _ | _ | x) f var hx <;> cases hx
  have hnew : Host.Reachable Machine.Careful ⟨{ heap := ⟨16, #[], 0, 1⟩ }, ⟨2⟩, [], []⟩ :=
    @Host.Reachable.create _ { arena := .ofBlocks 16 } {} _ _ (by decide) rfl
  have hstart := hnew.move (.start _ 0)
  have hconstant := hstart.move (.step _ assignCode hcode (by rintro _ ⟨⟩))
  have hargument := hconstant.move (.step _ assignCode hcode (by rintro _ ⟨⟩))
  have hclose := hargument.move (.step _ assignCode hcode (by rintro _ ⟨⟩))
  have happly := hclose.move (.step _ assignCode hcode (by rintro _ ⟨⟩))
  exact happly.move (.step _ assignCode hcode (by rintro _ ⟨⟩))

/-- Other code, in which the parameter has another name. -/
def renamedCode : Code := { formals := #[[8]] }

end ClosureMachine
