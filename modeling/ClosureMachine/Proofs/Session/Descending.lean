import ClosureMachine.Proofs.Lowering.Descending
import ClosureMachine.Proofs.Machine.Cutoff
import ClosureMachine.Proofs.Session.Opening

/-!
Code that leads back, in sessions and in runs. The code of a session comes from its texts alone, so
if these repeat no parameter and ids fit in a word, all of it leads to earlier instructions and is
valid (`Session.Composed.settles`): the look at the code that ends a compilation refuses nothing.

An instruction passes control by position, to one of its successors, or it is one of the four that
take it from the registers (`Node.isTransfer`). Over code that leads back each step of the first
kind goes down, so there are at most as many of them in a row as there are instructions
(`Machine.exists_turn_le_size`).

`lowering_writes_back_to_front` puts these together with what lowering adds.
-/

namespace ClosureMachine

/-! ## Runs -/

/-- Instructions after which control goes where the registers say, or nowhere. -/
def Node.isTransfer : Node → Bool
  | .halt | .apply | .ret | .nuate .. => true
  | _ => false

namespace Machine

variable {m : Machine} {code : Code}

/-- A step has failed, or control has passed to one of `targets`. -/
def Passes (targets : List NodeId) (r : Result Progress) : Prop :=
  (∃ e, r.1 = .error e) ∨ r.1 = .ok .running ∧ r.2.regs.x ∈ targets

theorem passes_andGoto (next : NodeId) {targets : List NodeId} (h : next ∈ targets)
    (r : Result Unit) : Passes targets (andGoto next r) := by
  obtain ⟨e | _, m⟩ := r
  · exact .inl ⟨e, rfl⟩
  · exact .inr ⟨rfl, h⟩

/-- What is not a transfer goes on at one of its successors. -/
theorem passes_execute {n : Node} (hn : n.isTransfer = false) (m : Machine) (code : Code) :
    Passes n.successors (m.execute code n) := by
  cases n with
  | halt | apply | ret | nuate stack var => cases hn
  | refer var next =>
    rw [execute]
    split
    · exact .inl ⟨_, rfl⟩
    · exact .inr ⟨rfl, List.mem_singleton_self _⟩
  | constant v next => exact .inr ⟨rfl, List.mem_singleton_self _⟩
  | argument next => exact .inr ⟨rfl, List.mem_singleton_self _⟩
  | close formals body next => exact passes_andGoto next (by simp [Node.successors]) _
  | assign var next => exact passes_andGoto next (List.mem_singleton_self _) _
  | conti next => exact passes_andGoto next (List.mem_singleton_self _) _
  | frame returnTo next => exact passes_andGoto next (List.mem_cons_self ..) _
  | test onTrue onFalse =>
    refine .inr ⟨rfl, ?_⟩
    simp only [execute, goto, Node.successors]
    split <;> simp

theorem passes_step {n : Node} (hx : code.node? m.regs.x = some n) (hn : n.isTransfer = false) :
    Passes n.successors (m.step code) := by
  rw [step]
  split
  · exact .inl ⟨_, rfl⟩
  · rw [hx]
    exact passes_execute hn m.tick code

theorem step_of_absent (hx : code.node? m.regs.x = none) : ∃ e, (m.step code).1 = .error e := by
  rw [step]
  split
  · exact ⟨_, rfl⟩
  · rw [hx]
    exact ⟨_, rfl⟩

/-- The first `k` steps from `m` go on, and none of them is a transfer. -/
def Glides (m : Machine) (code : Code) (k : Nat) : Prop :=
  m.GoesOn code k ∧ ∀ j < k, ∃ n, code.node? (m.after code j).regs.x = some n ∧
    n.isTransfer = false

theorem glides_zero (m : Machine) (code : Code) : m.Glides code 0 := ⟨nofun, nofun⟩

theorem Glides.cons {n : Node} {k : Nat} (hx : code.node? m.regs.x = some n)
    (hn : n.isTransfer = false) (hs : (m.step code).1 = .ok .running)
    (h : (m.step code).2.Glides code k) : m.Glides code (k + 1) := by
  constructor
  · rintro (_ | j) hj
    · exact hs
    · rw [after_succ]
      exact h.1 j (Nat.lt_of_succ_lt_succ hj)
  · rintro (_ | j) hj
    · exact ⟨n, hx, hn⟩
    · rw [after_succ]
      exact h.2 j (Nat.lt_of_succ_lt_succ hj)

/-- The next step is a transfer, or it fails. -/
def Turns (m : Machine) (code : Code) : Prop :=
  (∃ n, code.node? m.regs.x = some n ∧ n.isTransfer = true) ∨ ∃ e, (m.step code).1 = .error e

/-- Over code that leads back, a step that is neither goes down. -/
theorem turns_or_descends (hd : code.Descending) (m : Machine) :
    m.Turns code ∨ ∃ n, code.node? m.regs.x = some n ∧ n.isTransfer = false ∧
      (m.step code).1 = .ok .running ∧ (m.step code).2.regs.x < m.regs.x := by
  cases hx : code.node? m.regs.x with
  | none => exact .inl (.inr (step_of_absent hx))
  | some n =>
    cases hn : n.isTransfer with
    | true => exact .inl (.inl ⟨n, hx, hn⟩)
    | false =>
      rcases passes_step hx hn with hfail | ⟨hs, hmem⟩
      · exact .inl (.inr hfail)
      · exact .inr ⟨n, rfl, hn, hs, hd _ n hx _ hmem⟩

/-- The position of the instruction at hand bounds the steps before a transfer or a failure. -/
theorem exists_turn (hd : code.Descending) (m : Machine) :
    ∃ k ≤ m.regs.x, m.Glides code k ∧ (m.after code k).Turns code := by
  obtain ⟨x, hx⟩ : ∃ x, m.regs.x = x := ⟨_, rfl⟩
  induction x using Nat.strongRecOn generalizing m with
  | _ x ih =>
    rcases turns_or_descends hd m with hturn | ⟨n, hn, ht, hs, hlt⟩
    · exact ⟨0, Nat.zero_le _, glides_zero m code, hturn⟩
    · obtain ⟨k, hk, hglides, hturn⟩ := ih _ (hx ▸ hlt) _ rfl
      rw [← after_succ] at hturn
      exact ⟨k + 1, Nat.lt_of_le_of_lt hk hlt, hglides.cons hn ht hs, hturn⟩

/-- There are at most as many steps before a transfer or a failure as there are instructions. -/
theorem exists_turn_le_size (hd : code.Descending) (m : Machine) :
    ∃ k ≤ code.size, m.Glides code k ∧ (m.after code k).Turns code := by
  rcases Nat.lt_or_ge m.regs.x code.size with hlt | hge
  · obtain ⟨k, hk, h⟩ := exists_turn hd m
    exact ⟨k, Nat.le_trans hk (Nat.le_of_lt hlt), h⟩
  · have habsent : code.node? m.regs.x = none := Array.getElem?_eq_none hge
    exact ⟨0, Nat.zero_le _, glides_zero m code, .inr (step_of_absent habsent)⟩

/-- A run takes the steps that go on, unless its deadline passes. -/
theorem GoesOn.proceed_or {k : Nat} (h : m.GoesOn code k) (expired : Nat → Bool) (fuel : Nat) :
    (∃ e m', Machine.proceed code expired (k + fuel) m = (some (.error e), m')) ∨
      Machine.proceed code expired (k + fuel) m =
        Machine.proceed code expired fuel (m.after code k) := by
  induction k generalizing fuel with
  | zero =>
    rw [Nat.zero_add]
    exact .inr rfl
  | succ k ih =>
    have hs := h k (Nat.lt_succ_self k)
    rw [Nat.add_right_comm, Nat.add_assoc]
    rcases ih (h.mono (Nat.le_succ k)) (fuel + 1) with hfail | hrest
    · exact .inl hfail
    · rw [hrest, Machine.proceed]
      split
      · exact .inl ⟨_, _, rfl⟩
      · right
        rw [after]
        generalize (m.after code k).step code = r at hs
        obtain ⟨o, m'⟩ := r
        cases hs
        rfl

end Machine

/-! ## Sessions -/

namespace Session

/-- The sessions whose texts repeat no parameter and whose ids fit in a word. Texts may be refused,
others may use the symbol table, and anything may happen to the machine. -/
inductive Composed : Session → SymbolTable → Prop
  | create {settings : Settings} {procedures : List (String × Arity × HostProcedure)}
    {symbols symbols' : SymbolTable} {gens gens' : Generations} {s : Session} :
    Session.create settings procedures symbols gens = (.ok (s, gens'), symbols') →
    Composed s symbols'
  | compile {s : Session} {symbols : SymbolTable} (source : String) : Composed s symbols →
    Form.distinctInText source = true → (s.compile symbols source).2.1.code.Roomy →
    Composed (s.compile symbols source).2.1 (s.compile symbols source).2.2
  | share {s : Session} {symbols symbols' : SymbolTable} : Composed s symbols →
    symbols.Grows symbols' → Composed s symbols'
  | operate {s : Session} {symbols : SymbolTable} (m : Machine) : Composed s symbols →
    Composed { s with machine := m } symbols

theorem grows_equip (ps : List (String × Arity × HostProcedure)) (m : Machine) (t : SymbolTable) :
    t.Grows (equip m t ps).2 := by
  induction ps generalizing m t with
  | nil => exact .refl t
  | cons p ps ih =>
    obtain ⟨name, arity, run⟩ := p
    exact (t.grows_intern name).trans (ih _ _)

/-- A text is lowered as its forms are, and the look at the code can only refuse it. -/
theorem compile_lays {s : Session} {symbols : SymbolTable} (hk : s.keywords.Fits symbols)
    {source : String} (hf : Form.distinctInText source = true) :
    ∃ o w', s.compile symbols source =
        (if w'.code.defect?.isNone then o else none, s.updated w', w'.symbols) ∧
      (s.workspace symbols).Extends w' ∧ s.code.Descends w'.code ∧
      o = (Form.readAll? source).bind fun forms =>
        ((Lowering.unchecked forms).run (s.workspace symbols)).1 := by
  cases hread : Form.readAll? source with
  | none =>
    refine ⟨none, s.workspace symbols, ?_, .refl _, .refl _, rfl⟩
    simp only [compile, hread, ite_self]
    rfl
  | some forms =>
    rw [Form.distinctInText, hread] at hf
    obtain ⟨o, w', hrun, hx, hd, -⟩ := Lowering.lays_unchecked (w := s.workspace symbols) hf hk
    refine ⟨o, w', ?_, hx, hd, ?_⟩
    · simp only [compile, hread]
      rw [show (⟨symbols, s.keywords, s.code, s.machine.globals⟩ : Workspace) =
        s.workspace symbols from rfl, Lowering.run_program_eq hrun]
      rfl
    · rw [Option.bind_some, hrun]

/-- Keywords are known, and every instruction may stand where it does. -/
theorem Composed.settles {s : Session} {symbols : SymbolTable} (h : s.Composed symbols) :
    s.keywords.Fits symbols ∧ ∀ id n, s.code.node? id = some n → s.code.Settles id n := by
  induction h with
  | @create settings procedures symbols symbols' gens gens' s hs =>
    rw [Session.create] at hs
    cases hm : Machine.create settings gens with
    | error e =>
      rw [hm] at hs
      cases hs
    | ok r =>
      rw [hm] at hs
      cases hs
      refine ⟨(Keywords.fits_intern symbols).mono (grows_equip _ _ _), fun id n hn => ?_⟩
      exact absurd (Code.node?_lt hn) (Nat.not_lt_zero _)
  | @compile s symbols source _ hf hr ih =>
    obtain ⟨hk, hs⟩ := ih
    obtain ⟨o, w', hcompile, hx, hd, -⟩ := compile_lays hk hf
    have hk' : s.keywords.Fits w'.symbols := by
      rw [← show w'.keywords = s.keywords from hx.keywords]
      exact hx.fits hk
    rw [hcompile] at hr ⊢
    exact ⟨hk', hd.settles hx.code hr hs⟩
  | share _ hg ih => exact ⟨ih.1.mono hg, ih.2⟩
  | operate m _ ih => exact ih

end Session

/-- Lowering a form for an instruction of valid code that leads back leaves that code as it is and
adds more of the same kind, with the start among it. So the look at the code of a session refuses no
text that was lowered, and no run over such code takes more steps in a row than it has instructions
before a transfer, unless it stops with an error. -/
theorem lowering_writes_back_to_front :
    (∀ (w w' : Workspace) (f : Form) (next id : NodeId), w.keywords.Fits w.symbols →
      f.distinctParameters = true → w.code.defect? = none → w.code.Descending →
      next < w.code.size → (Lowering.form f next).run w = (some id, w') → w'.code.Roomy →
      w.code.nodes.toList <+: w'.code.nodes.toList ∧
        w.code.formals.toList <+: w'.code.formals.toList ∧ id < w'.code.size ∧
        (∀ i n, w.code.size ≤ i → w'.code.node? i = some n → w'.code.Settles i n) ∧
        w'.code.defect? = none ∧ w'.code.Descending) ∧
    (∀ (s : Session) (symbols : SymbolTable) (source : String), s.Composed symbols →
      Form.distinctInText source = true → (s.compile symbols source).2.1.code.Roomy →
      (s.compile symbols source).2.1.code.defect? = none ∧
        (s.compile symbols source).2.1.code.Descending ∧
        (s.compile symbols source).1 = (Form.readAll? source).bind fun forms =>
          ((Lowering.unchecked forms).run (s.workspace symbols)).1) ∧
    ∀ (code : Code), code.Descending → ∀ m : Machine, ∃ k ≤ code.size, m.Glides code k ∧
      (m.after code k).Turns code ∧ ∀ (expired : Nat → Bool) (fuel : Nat),
        (∃ e m', Machine.proceed code expired (k + fuel) m = (some (.error e), m')) ∨
          Machine.proceed code expired (k + fuel) m =
            Machine.proceed code expired fuel (m.after code k) := by
  refine ⟨?_, ?_, ?_⟩
  · intro w w' f next id hk hf hvalid hdescending hnext hrun hr
    obtain ⟨o, w'', hrun', hx, hd, hid⟩ := Lowering.lays_form f hf next w hk fun _ => hnext
    cases hrun.symm.trans hrun'
    rw [Code.defect?_eq_none_iff] at hvalid ⊢
    have hall := hd.settles hx.code hr (w.code.settles_iff.mpr ⟨hvalid, hdescending⟩)
    exact ⟨hx.code.nodes, hx.code.formals, hid id rfl hr, hd hr, w'.code.settles_iff.mp hall⟩
  · intro s symbols source hs hf hr
    obtain ⟨hk, hall⟩ := hs.settles
    obtain ⟨o, w', hcompile, hx, hd, ho⟩ := Session.compile_lays hk hf
    rw [hcompile] at hr ⊢
    obtain ⟨hvalid, hdescending⟩ := w'.code.settles_iff.mp (hd.settles hx.code hr hall)
    have hdefect := (Code.defect?_eq_none_iff _).mpr hvalid
    refine ⟨hdefect, hdescending, ?_⟩
    rw [hdefect, ← ho]
    rfl
  · intro code hd m
    obtain ⟨k, hk, hglides, hturn⟩ := Machine.exists_turn_le_size hd m
    exact ⟨k, hk, hglides, hturn, fun expired fuel => hglides.1.proceed_or expired fuel⟩

/-- One instruction, and the keywords. -/
def haltWorkspace : Workspace :=
  ⟨(Keywords.intern {}).2, (Keywords.intern {}).1, ⟨#[.halt], #[]⟩, {}⟩

def identityForm : Form := .list [.atom "lambda", .list [.atom "x"], .atom "x"]

/-- The code of `identityForm` after a halt. -/
def identityCode : Code := ⟨#[.halt, .ret, .refer 11 1, .close 0 2 0], #[[11]]⟩

theorem lowering_writes_back_to_front_identity :
    (∃ w', (Lowering.form identityForm 0).run haltWorkspace = (some 3, w') ∧
      w'.code = identityCode ∧ 3 < w'.code.size ∧
      (∀ i n, 1 ≤ i → w'.code.node? i = some n → w'.code.Settles i n) ∧
      w'.code.defect? = none ∧ w'.code.Descending) ∧
    (smallSession.1.Composed smallSession.2 ∧
      (smallSession.1.compile smallSession.2 "((lambda (x) x) 7)").2.1.code.defect? = none ∧
      (smallSession.1.compile smallSession.2 "((lambda (x) x) 7)").1 =
        (Form.readAll? "((lambda (x) x) 7)").bind fun forms =>
          ((Lowering.unchecked forms).run (smallSession.1.workspace smallSession.2)).1) ∧
    ∃ k ≤ 4, (smallSession.1.machine.start 3).Glides identityCode k ∧
      ((smallSession.1.machine.start 3).after identityCode k).Turns identityCode := by
  obtain ⟨hform, hsession, hrun⟩ := lowering_writes_back_to_front
  have hfits : haltWorkspace.keywords.Fits haltWorkspace.symbols := Keywords.fits_intern {}
  have hstart : ((Lowering.form identityForm 0).run haltWorkspace).1 = some 3 := by decide +kernel
  have hcode : ((Lowering.form identityForm 0).run haltWorkspace).2.code = identityCode := by
    decide +kernel
  have hdescending : haltWorkspace.code.Descending := by
    intro id n hn
    have hlt := Code.node?_lt hn
    obtain rfl : id = 0 := Nat.lt_one_iff.mp hlt
    cases hn
    exact nofun
  have hlowered := hform haltWorkspace _ identityForm 0 3 hfits (by decide +kernel)
    (by decide +kernel) hdescending (by decide) (Prod.ext hstart rfl)
    (by rw [hcode]; exact ⟨by decide, by decide⟩)
  obtain ⟨-, -, hid, hnew, hdefect, hdown⟩ := hlowered
  obtain ⟨gens, hcreated⟩ := smallSession_created
  have hcomposed := Session.Composed.create hcreated
  have hcompiled := hsession smallSession.1 smallSession.2 "((lambda (x) x) 7)" hcomposed
    (by decide +kernel) ⟨by decide +kernel, by decide +kernel⟩
  refine ⟨⟨_, Prod.ext hstart rfl, hcode, hid, hnew, hdefect, hdown⟩,
    ⟨hcomposed, hcompiled.1, hcompiled.2.2⟩, ?_⟩
  obtain ⟨k, hk, hglides, hturn, -⟩ :=
    hrun identityCode (hcode ▸ hdown) (smallSession.1.machine.start 3)
  exact ⟨k, hk, hglides, hturn⟩

end ClosureMachine
