import ClosureMachine.Proofs.Machine.Procedures
import ClosureMachine.Proofs.Machine.Regime
import ClosureMachine.Proofs.Session.Opening

/-!
Lowered programs never go fatally wrong. `Code.Safe` says from which instructions control can go on
without ever returning past the last frame: bodies of procedures run with a frame on the stack, the
top level may run without one. Lowered code is safe (`Compiled.safe`), and safe code makes a strict
regime. So whatever is evaluated in a session, in whatever order and however it ends, the only
errors are those that a program can be blamed for (`sessions_never_go_wrong`).
-/

namespace ClosureMachine

/-- Control may be at an instruction, with a frame on the stack or without one. -/
inductive Code.Safe (c : Code) : Bool → NodeId → Prop
  | halt {framed : Bool} {id : NodeId} : c.node? id = some .halt → c.Safe framed id
  | refer {framed : Bool} {id next : NodeId} {var : SymbolId} :
    c.node? id = some (.refer var next) → c.Safe framed next → c.Safe framed id
  | constant {framed : Bool} {id next : NodeId} {v : Value} :
    c.node? id = some (.constant v next) → (∀ n, v.Plain n) → c.Safe framed next →
    c.Safe framed id
  | close {framed : Bool} {id body next : NodeId} {f : FormalsId} {names : List SymbolId} :
    c.node? id = some (.close f body next) → c.formals? f = some names → c.Safe true body →
    c.Safe framed next → c.Safe framed id
  | test {framed : Bool} {id onTrue onFalse : NodeId} :
    c.node? id = some (.test onTrue onFalse) → c.Safe framed onTrue → c.Safe framed onFalse →
    c.Safe framed id
  | assign {framed : Bool} {id next : NodeId} {var : SymbolId} :
    c.node? id = some (.assign var next) → c.Safe framed next → c.Safe framed id
  | conti {id next : NodeId} : c.node? id = some (.conti next) → c.Safe true next → c.Safe true id
  | frame {framed : Bool} {id returnTo next : NodeId} :
    c.node? id = some (.frame returnTo next) → c.Safe framed returnTo → c.Safe true next →
    c.Safe framed id
  | argument {framed : Bool} {id next : NodeId} : c.node? id = some (.argument next) →
    c.Safe framed next → c.Safe framed id
  | apply {id : NodeId} : c.node? id = some .apply → c.Safe true id
  | ret {id : NodeId} : c.node? id = some .ret → c.Safe true id

namespace Code

theorem Safe.mono {c c' : Code} (hg : c.Grows c') {framed : Bool} {id : NodeId}
    (h : c.Safe framed id) : c'.Safe framed id := by
  induction h with
  | halt hn => exact .halt (hg.node? hn)
  | refer hn _ ih => exact .refer (hg.node? hn) ih
  | constant hn hv _ ih => exact .constant (hg.node? hn) hv ih
  | close hn hf _ _ ihb ih => exact .close (hg.node? hn) (hg.formals? hf) ihb ih
  | test hn _ _ iht ihf => exact .test (hg.node? hn) iht ihf
  | assign hn _ ih => exact .assign (hg.node? hn) ih
  | conti hn _ ih => exact .conti (hg.node? hn) ih
  | frame hn _ _ ihr ih => exact .frame (hg.node? hn) ihr ih
  | argument hn _ ih => exact .argument (hg.node? hn) ih
  | apply hn => exact .apply (hg.node? hn)
  | ret hn => exact .ret (hg.node? hn)

/-- A return is safe only with a frame. -/
theorem Safe.framed_of_ret {c : Code} {framed : Bool} {id : NodeId} (h : c.Safe framed id)
    (hn : c.node? id = some .ret) : framed = true := by
  cases h with
  | ret _ => rfl
  | conti h' _ => rfl
  | apply h' => rfl
  | halt h' | refer h' _ | constant h' _ _ | close h' _ _ _ | test h' _ _ | assign h' _
  | frame h' _ _ | argument h' _ =>
    rw [hn] at h'
    cases h'

theorem Brackets.safe {c : Code} {framed : Bool} {inner next start : NodeId}
    (h : c.Brackets inner next start) (hi : c.Safe true inner) (hn : c.Safe framed next) :
    c.Safe framed start := by
  rcases h with ⟨hret, rfl⟩ | hframe
  · exact hn.framed_of_ret hret ▸ hi
  · exact .frame hframe hn hi

end Code

theorem Datum.Encodes.plain {t : SymbolTable} {d : Datum} {v : Value} (h : d.Encodes t v)
    (n : Nat) : v.Plain n := by
  cases v with
  | closure r => cases d <;> exact h.elim
  | continuation r => cases d <;> exact h.elim
  | primitive id => cases d <;> exact h.elim
  | _ => trivial

mutual

/-- Code that implements an expression is safe if what follows it is. -/
theorem Compiled.safe {t : SymbolTable} {c : Code} {e : Expr} {next start : NodeId}
    {framed : Bool} : Compiled t c e next start → c.Safe framed next → c.Safe framed start
  | .literal hd hn, h => .constant hn hd.plain h
  | .variable _ hn, h => .refer hn h
  | .lambda _ hf hret hb hn, h => .close hn hf (hb.safe (.ret hret)) h
  | .conditional hyes hno hn hc, h => hc.safe (.test hn (hyes.safe h) (hno.safe h))
  | .assign _ hn he, h => he.safe (.assign hn h)
  | .define _ hn he, h => he.safe (.assign hn h)
  | .sequence hes, h => hes.safe h
  | .callCc hcall he harg hn hb, h =>
    hb.safe (.conti hn (.argument harg (he.safe (.apply hcall)))) h
  | .call hcall he hargs hb, h => hb.safe (hargs.safe (he.safe (.apply hcall))) h

theorem CompiledAll.safe {t : SymbolTable} {c : Code} {es : List Expr} {next start : NodeId}
    {framed : Bool} : CompiledAll t c es next start → c.Safe framed next → c.Safe framed start
  | .nil, h => h
  | .cons hrest he, h => he.safe (hrest.safe h)

theorem CompiledArgs.safe {t : SymbolTable} {c : Code} {es : List Expr} {next start : NodeId}
    {framed : Bool} : CompiledArgs t c es next start → c.Safe framed next → c.Safe framed start
  | .nil, h => h
  | .cons hrest hn he, h => he.safe (.argument hn (hrest.safe h))

end

theorem Lowering.Implements.safe {t : SymbolTable} {c : Code} {es : List Expr} {entry : NodeId}
    (h : Implements t c es entry) : c.Safe false entry := by
  obtain ⟨halt, hhalt, hes⟩ := h
  exact hes.safe (.halt hhalt)

/-! ## Errors -/

namespace MachineError

/-- Errors that a program can be blamed for. -/
def Ordinary : MachineError → Prop
  | unboundVariable _ | notCallable _ | arityMismatch .. | outOfMemory _ | primitiveFailed ..
  | instructionLimitExceeded _ | overflow _ => True
  | _ => False

theorem Ordinary.not_fatal {e : MachineError} (h : e.Ordinary) : e.isFatal = false := by
  cases e with
  | stackUnderflow | malformed | endless => exact h.elim
  | _ => rfl

end MachineError

theorem Value.IsScalar.plain {v : Value} (h : v.IsScalar) (n : Nat) : v.Plain n := by
  cases v with
  | int k => trivial
  | bool b => trivial
  | _ => exact h.elim

/-! ## The regime of lowered code -/

/-- Control is where it is safe. -/
def Regime.lowered (c : Code) (n : Nat) : Regime where
  code := c
  base := 0
  procedures := n
  reports := MachineError.IsArithmetic
  strict := true
  runs := c.Safe

theorem Regime.lowered_lawful (c : Code) (n : Nat) : (Regime.lowered c n).Lawful where
  lax := nofun
  node framed id h := by
    cases h with
    | halt hn => exact ⟨_, hn, trivial⟩
    | refer hn h => exact ⟨_, hn, h⟩
    | constant hn hv h => exact ⟨_, hn, hv n, h⟩
    | close hn hf hb h => exact ⟨_, hn, ⟨_, hf⟩, hb, h⟩
    | test hn ht hf => exact ⟨_, hn, ht, hf⟩
    | assign hn h => exact ⟨_, hn, h⟩
    | conti hn h => exact ⟨_, hn, fun _ => rfl, h⟩
    | frame hn hr h => exact ⟨_, hn, hr, h⟩
    | argument hn h => exact ⟨_, hn, h⟩
    | apply hn => exact ⟨_, hn, fun _ => rfl⟩
    | ret hn => exact ⟨_, hn, fun _ => rfl⟩

theorem Regime.ordinary_of_tolerates {c : Code} {n : Nat} {e : MachineError}
    (h : (Regime.lowered c n).Tolerates e) : e.Ordinary := by
  cases e with
  | stackUnderflow id =>
    rcases h with h | h
    · cases h
    · exact h.elim
  | unboundVariable | notCallable | arityMismatch | outOfMemory | primitiveFailed
  | instructionLimitExceeded | overflow => trivial
  | _ => exact h.elim

/-! ## Sessions -/

namespace Session

/-- The sessions that come about, each with the symbol table as the session left it. Others may use
the table in between. -/
inductive Lives : Session → SymbolTable → Prop
  | create {settings : Settings} {symbols symbols' : SymbolTable} {gens gens' : Generations}
    {s : Session} : Session.create settings Arithmetic.procedures symbols gens =
      (.ok (s, gens'), symbols') → Lives s symbols'
  | eval {s : Session} {symbols symbols' : SymbolTable} (source : String) (fuel : Nat) :
    Lives s symbols → symbols.Grows symbols' →
    (s.eval symbols' source fuel).2.1.code.size < wordLimit →
    Lives (s.eval symbols' source fuel).2.1 (s.eval symbols' source fuel).2.2
  | reset {s : Session} {symbols : SymbolTable} {m : Machine} {gens gens' : Generations} :
    Lives s symbols → s.machine.reset gens = .ok (m, gens') →
    Lives { s with machine := m } symbols
  | limit {s : Session} {symbols : SymbolTable} (limit : Option Nat) : Lives s symbols →
    Lives { s with machine := { s.machine with limit } } symbols
  | define {s : Session} {symbols symbols' : SymbolTable} (name : String) {v : Value} :
    Lives s symbols → symbols.Grows symbols' → v.Plain s.machine.primitives.size →
    Lives { s with machine := (s.machine.defineGlobal symbols' name v).2.1 }
      (s.machine.defineGlobal symbols' name v).2.2

/-- The invariant of a session. -/
structure Secure (s : Session) (symbols : SymbolTable) : Prop where
  ready : (s.workspace symbols).Ready
  installs : ∀ id stack var, s.code.node? id ≠ some (.nuate stack var)
  governs : (Regime.lowered s.code s.machine.primitives.size).Governs s.machine

theorem trusts_of_tame {d : Regime} (hd : d.reports = MachineError.IsArithmetic) {p : Primitive}
    (h : ∀ args, Arithmetic.Tame Value.IsScalar (p.run args)) : d.Trusts p := by
  intro args
  have htame := h args
  constructor
  · intro v hv
    rw [hv] at htame
    exact .inl (htame.plain _)
  · intro e he
    rw [he] at htame
    exact hd ▸ htame

theorem Secure.create {settings : Settings} {symbols symbols' : SymbolTable}
    {gens gens' : Generations} {s : Session}
    (h : Session.create settings Arithmetic.procedures symbols gens = (.ok (s, gens'), symbols')) :
    s.Secure symbols' := by
  obtain ⟨heap, t, hw, he, hcode, hkeywords, heq⟩ := create_spec (by decide) (by decide) h
  have hused : heap.used = 0 := by simp [Arena.used, he]
  have hsame := heq.same
  have hsize : s.machine.primitives.size = 4 := by
    rw [Machine.size_primitives, heq.procedures]
    rfl
  refine ⟨⟨hkeywords, by rw [workspace, hcode]; exact Nat.le_refl _⟩, ?_, ?_⟩
  · intro id stack var hn
    rw [hcode] at hn
    exact absurd (Code.node?_lt hn) (Nat.not_lt_zero _)
  · have hheap : s.machine.heap = heap := by rw [hsame]
    have hregs : s.machine.regs = { x := 0 } := by rw [hsame]
    refine .of_cleared ?_ (hheap ▸ hw) ?_ hregs ?_ rfl ?_ ?_
    · rw [hheap, hused]
      exact Nat.zero_le _
    · rw [hheap, hused]
      rfl
    · intro id v hv
      rcases heq.fresh id v hv with hv | ⟨i, p, hp, -, rfl⟩
      · cases hv
      · change #[].size + i < s.machine.primitives.size
        have hi : i < 4 := (List.getElem?_eq_some_iff.mp hp).1
        simp only [List.size_toArray, List.length_nil]
        omega
    · intro p hp
      have hmem : (p.arity, p.run) ∈ s.machine.procedures :=
        List.mem_map.mpr ⟨p, Array.mem_toList_iff.mpr hp, rfl⟩
      rw [heq.procedures] at hmem
      obtain ⟨q, hq, hrun⟩ := List.mem_map.mp hmem
      refine trusts_of_tame rfl fun args => ?_
      have htame := Arithmetic.tame_procedures q hq args
      rw [hrun] at htame
      exact htame
    · intro id f var hn
      change s.code.node? id = _ at hn
      rw [hcode] at hn
      exact absurd (Code.node?_lt hn) (Nat.not_lt_zero _)

/-- Lowering leaves a session secure, whether or not it succeeds. -/
theorem Secure.updated {s : Session} {symbols : SymbolTable} (h : s.Secure symbols) {w : Workspace}
    (hx : (s.workspace symbols).Extends w) : (s.updated w).Secure w.symbols := by
  have hinstalls : ∀ id stack var, w.code.node? id ≠ some (.nuate stack var) :=
    fun id stack var hn => h.installs id stack var (hx.installs id stack var hn)
  refine ⟨?_, hinstalls, ?_⟩
  · have hready := h.ready.mono hx
    exact ⟨hx.keywords ▸ hready.keywords, hready.formals⟩
  · have hgrow := h.governs.grow (c := w.code) hx.code (fun _ _ hs => Code.Safe.mono hx.code hs)
      fun id f var hn => absurd hn (hinstalls id (some f) var)
    refine hgrow.with_globals ?_
    intro id v hv
    rcases hx.declared id v hv with hv | ⟨rfl, -⟩
    · exact h.governs.globals id v hv
    · trivial

theorem Secure.symbols {s : Session} {symbols symbols' : SymbolTable} (h : s.Secure symbols)
    (hg : symbols.Grows symbols') : s.Secure symbols' :=
  ⟨⟨h.ready.keywords.mono hg, h.ready.formals⟩, h.installs, h.governs⟩

/-- A run from a safe entry leaves a session secure and fails only in ordinary ways. -/
theorem Secure.run {s : Session} {symbols : SymbolTable} (h : s.Secure symbols) {entry : NodeId}
    (he : s.code.Safe false entry) (fuel : Nat) :
    (s.run entry (fun _ => false) fuel).2.Secure symbols ∧
      ∀ e, (s.run entry (fun _ => false) fuel).1 = some (.error e) → e.Ordinary := by
  have hlive : (Regime.lowered s.code s.machine.primitives.size).Live (s.machine.start entry) :=
    ⟨h.governs.start entry, he⟩
  obtain ⟨hlive', -, herr⟩ :=
    Regime.proceed_live (Regime.lowered_lawful _ _) (fun _ => false) fuel hlive
  have hg := hlive'.governs
  constructor
  · refine ⟨⟨h.ready.keywords, h.ready.formals⟩, h.installs, ?_⟩
    have hp : (s.machine.runUntil s.code entry (fun _ => false) fuel).2.primitives.size =
        s.machine.primitives.size := hg.procedures
    change (Regime.lowered s.code
      (s.machine.runUntil s.code entry (fun _ => false) fuel).2.primitives.size).Governs _
    rw [hp]
    exact hg
  · intro e hrun
    rcases herr e hrun with ht | ⟨n, -, hexpired⟩
    · exact Regime.ordinary_of_tolerates ht
    · cases hexpired

/-- How an evaluation may fail: the text was refused, or there was an ordinary error. -/
def Blames (s : Session) (symbols : SymbolTable) (source : String) : SessionError → Prop
  | .badSource => (s.compile symbols source).1 = none
  | .failed e => e.Ordinary ∧ e.isFatal = false

theorem Secure.eval {s : Session} {symbols : SymbolTable} (h : s.Secure symbols) (source : String)
    (fuel : Nat) (hw : (s.eval symbols source fuel).2.1.code.size < wordLimit) :
    (s.eval symbols source fuel).2.1.Secure (s.eval symbols source fuel).2.2 ∧
      ∀ e, (s.eval symbols source fuel).1 = some (.error e) → s.Blames symbols source e := by
  obtain ⟨entry, w, hc, hx, hspec⟩ := compile_spec h.ready source
  have hs := h.updated hx
  cases entry with
  | none =>
    rw [eval_of_none hc fuel]
    refine ⟨hs, ?_⟩
    rintro _ ⟨⟩
    exact congrArg Prod.fst hc
  | some entry =>
    rw [eval_of_entry hc fuel] at hw ⊢
    cases hf : Form.readAll? source with
    | none =>
      rw [hf] at hspec
      cases hspec
    | some forms =>
      rw [hf] at hspec
      obtain ⟨es, -, himp, -⟩ := (hspec hw).sound entry rfl
      obtain ⟨hsecure, herr⟩ := hs.run himp.safe fuel
      refine ⟨hsecure, ?_⟩
      intro e he
      rcases hr : ((s.updated w).run entry (fun _ => false) fuel).1 with _ | e' | v
      · rw [hr] at he
        cases he
      · rw [hr] at he
        cases he
        exact ⟨herr e' hr, (herr e' hr).not_fatal⟩
      · rw [hr] at he
        cases he

theorem Secure.reset {s : Session} {symbols : SymbolTable} (h : s.Secure symbols) {m : Machine}
    {gens gens' : Generations} (hm : s.machine.reset gens = .ok (m, gens')) :
    Secure { s with machine := m } symbols := by
  obtain ⟨heap, hcap, he, rfl⟩ := Machine.reset_eq_ok hm
  have hused : heap.used = 0 := by simp [Arena.used, he]
  have hg := h.governs
  refine ⟨⟨h.ready.keywords, h.ready.formals⟩, h.installs, ?_⟩
  refine .of_cleared ?_ (hcap ▸ hg.rooted.linked.capacity_lt) hused.symm rfl ?_ rfl hg.trusts
    fun id f var hn => h.installs id (some f) var hn
  · rw [hused]
    exact Nat.zero_le _
  · intro id v hv
    obtain ⟨hmem, hboxed⟩ := Globals.mem_immediates hv
    have hadm := hg.globals id v hmem
    cases v with
    | closure r => cases hboxed
    | continuation r => cases hboxed
    | primitive id => exact hadm
    | _ => trivial

theorem Lives.secure {s : Session} {symbols : SymbolTable} (h : Lives s symbols) :
    s.Secure symbols := by
  induction h with
  | create hs => exact .create hs
  | eval source fuel _ hg hw ih => exact ((ih.symbols hg).eval source fuel hw).1
  | reset _ hm ih => exact ih.reset hm
  | limit l _ ih =>
    have hg := ih.governs
    exact ⟨ih.ready, ih.installs, hg.congr rfl rfl rfl hg.accumulator hg.rib rfl rfl⟩
  | define name _ hg hv ih =>
    have hs := ih.symbols (hg.trans (SymbolTable.grows_intern _ name))
    refine ⟨⟨hs.ready.keywords, hs.ready.formals⟩, hs.installs, hs.governs.with_globals ?_⟩
    intro id v hmem
    rcases Globals.mem_define hmem with ⟨-, rfl⟩ | hmem
    · exact Regime.admits_of_plain hv _
    · exact ih.governs.globals id v hmem

end Session

/-- In a session that came about in whatever way, an evaluation is refused, goes on, answers with a
value, or fails in an ordinary way; no error is ever fatal. -/
theorem sessions_never_go_wrong {s : Session} {symbols symbols' : SymbolTable}
    (h : s.Lives symbols) (hg : symbols.Grows symbols') (source : String) (fuel : Nat)
    (hw : (s.eval symbols' source fuel).2.1.code.size < wordLimit) :
    ∀ e, (s.eval symbols' source fuel).1 = some (.error e) → s.Blames symbols' source e :=
  ((h.secure.symbols hg).eval source fuel hw).2

theorem smallSession_lives : smallSession.1.Lives smallSession.2 := by
  obtain ⟨gens, h⟩ := smallSession_created
  exact .create h

theorem keptSession_lives : keptSession.1.Lives keptSession.2 := by
  unfold keptSession
  exact .eval _ 100 smallSession_lives (.refl _) (by decide +kernel)

/-- The continuation is used by a later program, and misused by another. -/
theorem sessions_never_go_wrong_kept :
    (keptSession.1.eval keptSession.2 "(k 10)" 100).1.bind Except.toOption = some (.int 11) ∧
      ∀ e, (keptSession.1.eval keptSession.2 "(k)" 100).1 = some (.error e) →
        keptSession.1.Blames keptSession.2 "(k)" e :=
  ⟨by decide +kernel,
    sessions_never_go_wrong keptSession_lives (.refl _) "(k)" 100 (by decide +kernel)⟩

end ClosureMachine
