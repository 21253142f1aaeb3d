import Mathlib.Logic.Relation
import ClosureMachine.Proofs.Machine.Activation
import ClosureMachine.Proofs.Machine.Bodies
import ClosureMachine.Proofs.Machine.StaleStacks
import ClosureMachine.Proofs.Session.Opening

/-!
Tail calls run in constant stack space. A dialogue is a session with the symbol table and the
counter of generations that it uses. The host has texts compiled, starts programs, takes single
steps, also after failed ones, resets the machine, and changes globals, host procedures and the
limit as it likes; evaluating a text is a part of such a dialogue (`Orderly.later_eval`). In every
dialogue an activation of a body has the control stack that it was entered with whenever it makes a
call in tail position and whenever it returns, and then just the arguments of that call have been
collected (`tail_calls_keep_the_stack`). So the control stack is the same at the end of any chain of
tail calls.
-/

namespace ClosureMachine

/-- A session with what it shares with others: the symbol table and the counter of generations. -/
structure Dialogue where
  session : Session
  symbols : SymbolTable
  gens : Generations

namespace Dialogue

abbrev machine (d : Dialogue) : Machine := d.session.machine

abbrev code (d : Dialogue) : Code := d.session.code

abbrev regs (d : Dialogue) : Registers := d.machine.regs

abbrev epoch (d : Dialogue) : Nat := d.machine.heap.generation

def withMachine (d : Dialogue) (m : Machine) : Dialogue :=
  { d with session := { d.session with machine := m } }

/-- The dialogue after a text has been compiled, or refused. -/
def compiled (d : Dialogue) (source : String) : Dialogue :=
  { d with
    session := (d.session.compile d.symbols source).2.1
    symbols := (d.session.compile d.symbols source).2.2 }

/-- The dialogue after a step. -/
def stepped (d : Dialogue) : Dialogue := d.withMachine (d.machine.step d.code).2

/-- One act of the host, or of others who use the symbol table and the counter. -/
inductive Move : Dialogue → Dialogue → Prop
  | compile (d : Dialogue) (source : String) : Move d (d.compiled source)
  | start (d : Dialogue) {es : List Expr} {entry : NodeId} : entry < wordLimit →
    Lowering.Implements d.symbols d.code es entry → Move d (d.withMachine (d.machine.start entry))
  | step (d : Dialogue) : Move d d.stepped
  | adjust (d : Dialogue) (globals : Globals) (primitives : Array Primitive) (limit : Option Nat)
    {symbols : SymbolTable} : d.symbols.Grows symbols →
    Move d { d.withMachine { d.machine with globals, primitives, limit } with symbols }
  | issue (d : Dialogue) {n : Nat} {gens : Generations} : d.gens.issue? = some (n, gens) →
    Move d { d with gens }
  | reset (d : Dialogue) {m : Machine} {gens : Generations} :
    d.machine.reset d.gens = .ok (m, gens) → Move d { d.withMachine m with gens }

/-- `q` comes after `p`. -/
abbrev Later : Dialogue → Dialogue → Prop := Relation.ReflTransGen Move

/-- The dialogues that a host can bring about. -/
inductive Reachable : Dialogue → Prop
  | create {settings : Settings} {ps : List (String × Arity × HostProcedure)}
    {symbols symbols' : SymbolTable} {gens gens' : Generations} {s : Session} :
    gens.next < wordLimit → Session.create settings ps symbols gens = (.ok (s, gens'), symbols') →
    Reachable ⟨s, symbols', gens'⟩
  | move {p q : Dialogue} : Reachable p → Move p q → Reachable q

theorem Reachable.later {p q : Dialogue} (h : p.Reachable) (hl : p.Later q) : q.Reachable := by
  induction hl with
  | refl => exact h
  | tail _ hm ih => exact ih.move hm

/-! ## The invariant of a dialogue -/

structure Orderly (d : Dialogue) : Prop where
  ready : (d.session.workspace d.symbols).Ready
  tidy : d.code.Tidy
  installs : ∀ id stack var, d.code.node? id ≠ some (.nuate stack var)
  coherent : d.machine.Coherent d.code
  housed : d.machine.Housed d.code
  word : d.gens.next < wordLimit
  issued : d.gens.Past d.epoch

/-- Control is never left with a stack that an instruction installed. -/
theorem Orderly.settled {d : Dialogue} (h : d.Orderly) : d.machine.Settled := by
  refine ⟨h.coherent.sound, h.coherent.stack.resolve_right ?_⟩
  rintro ⟨var, hx⟩
  exact h.installs _ _ var hx

/-- The invariant holds and the code has only grown. So has the heap, unless a new epoch has begun
with a number that had not been given out. -/
structure Advances (d d' : Dialogue) : Prop where
  orderly : d'.Orderly
  grows : d.code.Grows d'.code
  past : ∀ g, d.gens.Past g → d'.gens.Past g
  heap : d.machine.heap.Keeps 0 d'.machine.heap ∨ ∀ g, d.gens.Past g → g ≠ d'.epoch

theorem Advances.trans {p q t : Dialogue} (h : p.Advances q) (h' : q.Advances t) :
    p.Advances t where
  orderly := h'.orderly
  grows := h.grows.trans h'.grows
  past g hg := h'.past g (h.past g hg)
  heap := by
    rcases h'.heap with hk' | hnew
    · rcases h.heap with hk | hnew
      · exact .inl (hk.trans hk')
      · exact .inr fun g hg heq => hnew g hg (heq.trans hk'.generation)
    · exact .inr fun g hg => hnew g (h.past g hg)

/-- Within an epoch nothing is lost. -/
theorem Advances.keeps {p q : Dialogue} (h : p.Advances q) (hp : p.Orderly)
    (he : q.epoch = p.epoch) : p.machine.heap.Keeps 0 q.machine.heap :=
  h.heap.resolve_right fun hnew => hnew _ hp.issued he.symm

/-- An epoch that has ended does not come back. -/
theorem Advances.same_epoch {p q t : Dialogue} (h : p.Advances q) (h' : q.Advances t)
    (hp : p.Orderly) (he : t.epoch = p.epoch) : q.epoch = p.epoch := by
  rcases h'.heap with hk | hnew
  · exact hk.generation.symm.trans he
  · exact absurd he.symm (hnew _ (h.past _ hp.issued))

/-- Nothing is lost in one act, and the counter is as it was. -/
private theorem Orderly.advances {d d' : Dialogue} (h : d.Orderly)
    (hready : (d'.session.workspace d'.symbols).Ready) (htidy : d'.code.Tidy)
    (hinstalls : ∀ id stack var, d'.code.node? id ≠ some (.nuate stack var))
    (hc : d'.machine.Coherent d'.code ∧ d.machine.heap.Keeps 0 d'.machine.heap)
    (hhoused : d'.machine.Housed d'.code) (hgrows : d.code.Grows d'.code)
    (hgens : d'.gens = d.gens) : d.Advances d' where
  orderly := ⟨hready, htidy, hinstalls, hc.1, hhoused, hgens ▸ h.word, by
    rw [hgens, epoch, hc.2.generation]
    exact h.issued⟩
  grows := hgrows
  past _ hg := hgens ▸ hg
  heap := .inl hc.2

/-- Compiling leaves tidy code, and the first instruction of all still halts. -/
private theorem compile_tidy {s : Session} {symbols : SymbolTable}
    (h : (s.workspace symbols).Ready) (ht : s.code.Tidy)
    (ho : ∀ n, s.code.node? 0 = some n → n = .halt) (source : String) :
    (s.compile symbols source).2.1.code.Tidy ∧
      ∀ n, (s.compile symbols source).2.1.code.node? 0 = some n → n = .halt := by
  unfold Session.compile
  split
  · exact ⟨ht, ho⟩
  · next forms _ => exact Lowering.run_program_tidy h ht ho forms

theorem Orderly.compile {d : Dialogue} (h : d.Orderly) (source : String) :
    d.Advances (d.compiled source) := by
  obtain ⟨ht, ho⟩ := compile_tidy h.ready h.tidy h.housed.origin source
  obtain ⟨entry, w, hc, hx, -⟩ := Session.compile_spec h.ready source
  unfold compiled
  rw [hc] at ht ho ⊢
  have hready := h.ready.mono hx
  have hgrow := ((Process.Move.grow d.machine hx.code).coherent h.coherent).1
  have hadjust := (Process.Move.adjust d.machine w.code w.globals d.machine.primitives
    d.machine.limit).coherent hgrow
  have hhoused := h.housed.grow hx.code ho
  refine h.advances ?_ ht ?_ hadjust (hhoused.goto rfl hhoused.control) hx.code rfl
  · exact ⟨hx.keywords ▸ hready.keywords, hready.formals⟩
  · exact fun id stack var hn => h.installs id stack var (hx.installs id stack var hn)

/-- A machine with an empty arena and cleared registers. -/
private theorem orderly_of_empty {d : Dialogue} (hready : (d.session.workspace d.symbols).Ready)
    (htidy : d.code.Tidy) (hinstalls : ∀ id stack var, d.code.node? id ≠ some (.nuate stack var))
    (horigin : ∀ n, d.code.node? 0 = some n → n = .halt)
    (hw : d.machine.heap.capacity < wordLimit) (hu : d.machine.heap.used = 0)
    (hr : d.machine.regs = {}) (hd : d.machine.depth = 0)
    (hg : d.gens.next < wordLimit ∧ d.gens.Past d.epoch) : d.Orderly := by
  have hcell : ∀ o c, d.machine.heap.cell? o ≠ some c := by
    intro o c hc
    have := Heap.cell?_lt hc
    omega
  refine ⟨hready, htidy, hinstalls, Machine.coherent_of_empty hw hu hr hd _,
    ⟨horigin, .inl ?_, ?_, ?_, ?_⟩, hg.1, hg.2⟩
  · rw [hr]
  · exact fun o head hc => absurd hc (hcell o _)
  · exact fun o c hc => absurd hc (hcell o _)
  · exact fun o k hc => absurd hc (hcell o _)

/-- A number that is given out is a new one. -/
theorem Orderly.fresh {d : Dialogue} (h : d.Orderly) {n : Nat} {gens : Generations}
    (hi : d.gens.issue? = some (n, gens)) : gens.next < wordLimit ∧ gens.Past n ∧
      ∀ g, d.gens.Past g → gens.Past g ∧ g ≠ n := by
  obtain ⟨hword, hpast, -⟩ := h.issued.issue h.word hi
  exact ⟨hword, hpast, fun g hg => (hg.issue h.word hi).2.2⟩

/-- A reset begins an epoch with a number of its own. -/
theorem Orderly.reset {d : Dialogue} (h : d.Orderly) {m : Machine} {gens : Generations}
    (hm : d.machine.reset d.gens = .ok (m, gens)) : d.Advances { d.withMachine m with gens } := by
  obtain ⟨hissue, hcap, hregion, hregs, hdepth⟩ := Machine.reset_begins hm
  obtain ⟨hword, hpast, hnew⟩ := h.fresh hissue
  refine ⟨?_, .refl _, fun g hg => (hnew g hg).1, .inr fun g hg => (hnew g hg).2⟩
  refine orderly_of_empty ⟨h.ready.keywords, h.ready.formals⟩ h.tidy h.installs h.housed.origin ?_
    ?_ hregs hdepth ⟨hword, hpast⟩
  · exact hcap ▸ h.coherent.sound.rooted.linked.capacity_lt
  · change m.heap.region.size = 0
    rw [hregion]
    rfl

/-- One act of the host. -/
theorem Orderly.move {d d' : Dialogue} (h : d.Orderly) (hm : Move d d') : d.Advances d' := by
  have hready : ∀ m, ((d.withMachine m).session.workspace d.symbols).Ready :=
    fun _ => ⟨h.ready.keywords, h.ready.formals⟩
  cases hm with
  | compile source => exact h.compile source
  | @start es entry hword himp =>
    have hc := (Process.Move.start d.machine d.code d.code entry).coherent h.coherent
    exact h.advances (hready _) h.tidy h.installs hc
      (h.housed.goto rfl (.inr ⟨hword, himp.safe⟩)) (.refl _) rfl
  | step =>
    have hc := (Process.Move.step d.machine d.code).coherent h.coherent
    exact h.advances (hready _) h.tidy h.installs hc
      (h.housed.step h.tidy h.settled (h.installs _)) (.refl _) rfl
  | adjust globals primitives limit hg =>
    have hc := (Process.Move.adjust d.machine d.code globals primitives limit).coherent h.coherent
    exact h.advances ⟨h.ready.keywords.mono hg, h.ready.formals⟩ h.tidy h.installs hc
      (h.housed.goto rfl h.housed.control) (.refl _) rfl
  | issue hi =>
    obtain ⟨hword, -, hnew⟩ := h.fresh hi
    exact ⟨⟨h.ready, h.tidy, h.installs, h.coherent, h.housed, hword, (hnew _ h.issued).1⟩,
      .refl _, fun g hg => (hnew g hg).1, .inl (.refl _ _)⟩
  | reset hm => exact h.reset hm

theorem Orderly.later {d d' : Dialogue} (h : d.Orderly) (hl : d.Later d') : d.Advances d' := by
  induction hl with
  | refl => exact ⟨h, .refl _, fun _ hg => hg, .inl (.refl _ _)⟩
  | tail _ hm ih => exact ih.trans (ih.orderly.move hm)

/-- Registering host procedures touches nothing else of the machine. -/
private theorem equip_same (ps : List (String × Arity × HostProcedure)) (m : Machine)
    (t : SymbolTable) : t.Grows (Session.equip m t ps).2 ∧
      ∃ globals primitives, (Session.equip m t ps).1 = { m with globals, primitives } := by
  induction ps generalizing m t with
  | nil => exact ⟨.refl t, m.globals, m.primitives, rfl⟩
  | cons p ps ih =>
    obtain ⟨name, arity, run⟩ := p
    obtain ⟨hg, globals, primitives, heq⟩ := ih (m.definePrimitive t name arity run).2.1
      (m.definePrimitive t name arity run).2.2
    exact ⟨(t.grows_intern name).trans hg, globals, primitives, heq⟩

theorem orderly_create {settings : Settings} {ps : List (String × Arity × HostProcedure)}
    {symbols symbols' : SymbolTable} {gens gens' : Generations} {s : Session}
    (hword : gens.next < wordLimit)
    (hs : Session.create settings ps symbols gens = (.ok (s, gens'), symbols')) :
    Orderly ⟨s, symbols', gens'⟩ := by
  unfold Session.create at hs
  cases hm : Machine.create settings gens with
  | error e =>
    simp only [hm] at hs
    cases hs
  | ok r =>
    obtain ⟨m, gens₁⟩ := r
    simp only [hm] at hs
    cases hs
    obtain ⟨hissue, hcap, hregion, hregs, hdepth⟩ := Machine.create_begins hm
    obtain ⟨hword', hpast, -⟩ := gens.past_zero.issue hword hissue
    obtain ⟨hg, globals, primitives, heq⟩ := equip_same ps m (Keywords.intern symbols).2
    have hnode : ∀ id n, Code.node? {} id ≠ some n :=
      fun id n hn => absurd (Code.node?_lt hn) (Nat.not_lt_zero _)
    rw [heq]
    refine orderly_of_empty ⟨(Keywords.fits_intern symbols).mono hg, Nat.le_refl _⟩
      ⟨fun id n hn => absurd hn (hnode id n), fun id _ _ _ _ hn => absurd hn (hnode id _)⟩
      (fun id _ _ => hnode id _) (fun n hn => absurd hn (hnode 0 n)) hcap ?_ hregs hdepth
      ⟨hword', hpast⟩
    change m.heap.region.size = 0
    rw [hregion]
    rfl

theorem Reachable.orderly {d : Dialogue} (h : d.Reachable) : d.Orderly := by
  induction h with
  | create hword hs => exact orderly_create hword hs
  | move _ hm ih => exact (ih.move hm).orderly

/-! ## Sessions -/

/-- What compiling answers with is the entry of a program. -/
theorem Orderly.implements {d : Dialogue} (h : d.Orderly) {source : String} {entry : NodeId}
    (hc : (d.session.compile d.symbols source).1 = some entry)
    (hsize : (d.compiled source).code.size < wordLimit) : entry < wordLimit ∧
      ∃ es, Lowering.Implements (d.compiled source).symbols (d.compiled source).code es entry := by
  obtain ⟨answer, w, heq, -, hspec⟩ := Session.compile_spec h.ready source
  unfold compiled at hsize ⊢
  rw [heq] at hc hsize ⊢
  cases hf : Form.readAll? source with
  | none =>
    rw [hf] at hspec
    cases hspec.symm.trans hc
  | some forms =>
    rw [hf] at hspec
    obtain ⟨es, -, himp, -⟩ := (hspec hsize).sound entry hc
    obtain ⟨n, hn, -⟩ := (Regime.lowered_lawful _ 0).node _ _ himp.safe
    exact ⟨Nat.lt_trans (Code.node?_lt hn) hsize, es, himp⟩

/-- A run is a number of steps. -/
theorem later_proceed (d : Dialogue) (expired : Nat → Bool) (fuel : Nat) (m : Machine) :
    (d.withMachine m).Later (d.withMachine (m.proceed d.code expired fuel).2) := by
  induction fuel generalizing m with
  | zero => exact .refl
  | succ fuel ih =>
    have hstep : (d.withMachine m).Later (d.withMachine (m.step d.code).2) :=
      .single (.step (d.withMachine m))
    unfold Machine.proceed
    split
    · exact .refl
    · split
      · next heq =>
        rw [heq] at hstep
        exact hstep
      · next heq =>
        rw [heq] at hstep
        exact hstep
      · next heq =>
        rw [heq] at hstep
        exact hstep.trans (ih _)

/-- Evaluating a text is compiling, starting and stepping. -/
theorem Orderly.later_eval {d : Dialogue} (h : d.Orderly) (source : String) (fuel : Nat)
    (hsize : (d.session.eval d.symbols source fuel).2.1.code.size < wordLimit) :
    d.Later ⟨(d.session.eval d.symbols source fuel).2.1,
      (d.session.eval d.symbols source fuel).2.2, d.gens⟩ := by
  have hcompile : d.Later (d.compiled source) := .single (.compile d source)
  rcases hc : d.session.compile d.symbols source with ⟨answer, s, symbols⟩
  have heq : d.compiled source = ⟨s, symbols, d.gens⟩ := by rw [compiled, hc]
  cases answer with
  | none =>
    rw [Session.eval_of_none hc]
    exact heq ▸ hcompile
  | some entry =>
    rw [Session.eval_of_entry hc] at hsize ⊢
    obtain ⟨hword, es, himp⟩ := h.implements (congrArg Prod.fst hc) (heq ▸ hsize)
    rw [heq] at hcompile himp
    exact (hcompile.tail (.start _ hword himp)).trans (later_proceed ⟨s, symbols, d.gens⟩ _ fuel _)

/-! ## Following an activation -/

theorem compiled_machine (d : Dialogue) (source : String) :
    (d.compiled source).machine.heap = d.machine.heap ∧ (d.compiled source).regs = d.regs := by
  unfold compiled Session.compile
  split <;> exact ⟨rfl, rfl⟩

/-- One act of the host within an epoch leaves an activation where it may be. -/
theorem Orderly.tracks_move {act : Activation} {seen : Registers → Prop} {d d' : Dialogue}
    (h : d.Orderly) (hm : Move d d') (he : d'.epoch = d.epoch)
    (ht : act.Tracks d.code seen d.machine) (hseen : seen d.regs) :
    act.Tracks d'.code seen d'.machine := by
  have hg := (h.move hm).grows
  cases hm with
  | compile source =>
    obtain ⟨hheap, hregs⟩ := d.compiled_machine source
    exact ht.congr hg (fun _ hs => hs) hheap (.inl hregs)
  | start hword himp => exact ht.congr hg (fun _ hs => hs) rfl (.inr rfl)
  | step =>
    exact ht.step h.settled hseen (h.installs _) fun _ _ => h.housed.readable h.coherent.sound
  | adjust globals primitives limit _ => exact ht.congr hg (fun _ hs => hs) rfl (.inl rfl)
  | issue _ => exact ht
  | reset hr =>
    obtain ⟨-, -, hnew⟩ := h.fresh (Machine.reset_begins hr).1
    exact absurd he.symm (hnew _ h.issued).2

/-- Registers that there have been between `q` and `t`. -/
def Between (q t : Dialogue) (regs : Registers) : Prop :=
  ∃ u, q.Later u ∧ u.Later t ∧ u.regs = regs

theorem Orderly.tracks_later {act : Activation} {q t : Dialogue} (h : q.Orderly)
    (hq : act.Tracks q.code (q.Between q) q.machine) (hl : q.Later t) (he : t.epoch = q.epoch) :
    act.Tracks t.code (q.Between t) t.machine := by
  induction hl with
  | refl => exact hq
  | @tail t t' hl hm ih =>
    have hadv := h.later hl
    have hsame := hadv.same_epoch (hadv.orderly.move hm) h he
    have hnow : q.Between t t.regs := ⟨t, hl, .refl, rfl⟩
    have htracks := hadv.orderly.tracks_move hm (he.trans hsame.symm) (ih hsame) hnow
    refine htracks.congr (.refl _) ?_ rfl (.inl rfl)
    rintro regs ⟨u, hu, hut, hregs⟩
    exact ⟨u, hu, hut.tail hm, hregs⟩

/-- The next step applies the closure `c` and enters its body. -/
structure Enters (p : Dialogue) (c : Closure) (q : Dialogue) : Prop where
  site : p.code.node? p.regs.x = some .apply
  callee : ∃ ref, p.regs.a = .closure ref ∧ p.machine.heap.get? ref = some c
  succeeds : (p.machine.step p.code).1 = .ok .running
  next : q = p.stepped

/-- The machine right after a body has been entered. -/
theorem Enters.machine_eq {p q : Dialogue} {c : Closure} (h : p.Enters c q) (hp : p.Orderly) :
    q.machine = p.machine.tick.entered c := by
  obtain ⟨ref, ha, hget⟩ := h.callee
  have hok := h.succeeds
  rw [h.next]
  change (p.machine.step p.code).2 = _
  cases hl : p.machine.exhaustedLimit? with
  | some limit =>
    simp only [Machine.step, hl] at hok
    cases hok
  | none =>
    have ha' : p.machine.tick.regs.a = .closure ref := ha
    have hget' : p.machine.tick.heap.get? ref = some c := hget
    rw [Machine.step_eq_execute hl h.site] at hok ⊢
    simp only [Machine.execute, Machine.apply, ha'] at hok ⊢
    cases hf : p.code.formals? c.formals with
    | none =>
      simp only [Machine.applyClosure, hget', hf] at hok
      cases hok
    | some names =>
      have hw : p.machine.tick.heap.capacity < wordLimit :=
        hp.coherent.sound.rooted.linked.capacity_lt
      rw [Machine.applyClosure_eq hw hget' hf] at hok ⊢
      split at hok
      · cases hok
      · next harity =>
        rw [if_neg harity]
        split at hok
        · cases hok
        · next hroom =>
          rw [if_neg hroom]
          rfl

/-- The control stack of `t` is that of `q`. -/
def SameStack (q t : Dialogue) : Prop :=
  t.regs.s = q.regs.s ∧ t.machine.depth = q.machine.depth

/-- The argument rib of `t` holds exactly the arguments of a call in tail position, made by the
activation that began with `q`. Each argument was in the accumulator when control had come to
collect it, in this activation, on its stack, and after the arguments before it had been collected.
The argument of a call with the current continuation is the continuation of the activation. -/
def Supplied (q t : Dialogue) : TailCall → Prop
  | .call _ args => t.regs.r.length = args.length ∧
    ∀ (i : Nat) (id : NodeId) (v : Value), args[i]? = some id → t.regs.r[i]? = some v →
      ∃ u : Dialogue, q.Later u ∧ u.Later t ∧ u.regs.x = id ∧ u.regs.e = q.regs.e ∧
        u.regs.s = q.regs.s ∧ u.regs.r = t.regs.r.take i ∧ u.regs.a = v
  | .callCc _ => ∃ k, t.regs.r = [.continuation k] ∧
    t.machine.heap.get? k = some ⟨q.regs.s, q.machine.depth⟩

/-- An environment belongs to one epoch. -/
theorem Orderly.epoch_eq {q t : Dialogue} (h : q.Orderly) (ht : t.Orderly) {r : EnvRef}
    (hq : q.regs.e = some r) (hr : t.regs.e = some r) : q.epoch = t.epoch :=
  (h.coherent.sound.rooted.env r hq).generation.symm.trans
    (ht.coherent.sound.rooted.env r hr).generation

/-- The depth goes with the stack. -/
theorem Orderly.sameStack {q t : Dialogue} (h : q.Orderly) (hl : q.Later t)
    (he : t.epoch = q.epoch) (hs : t.regs.s = q.regs.s) : q.SameStack t := by
  have hadv := h.later hl
  have hd := hadv.orderly.settled.depth
  rw [show t.machine.regs.s = q.regs.s from hs] at hd
  exact ⟨hs, hd.unique (h.settled.depth.mono (hadv.keeps h he))⟩

theorem Orderly.supplied {q t : Dialogue} {act : Activation} (h : q.Orderly) (hl : q.Later t)
    (hepoch : t.epoch = q.epoch) (he : q.regs.e = some act.env) (hs : q.regs.s = act.stack)
    {call : TailCall}
    (hc : act.Supplies (q.Between t) t.machine.heap call t.regs.r) : q.Supplied t call := by
  cases call with
  | call site args =>
    refine ⟨hc.length, fun i id v hid hv => ?_⟩
    obtain ⟨_, ⟨u, hqu, hut, rfl⟩, hx, hue, hus, hur, hua⟩ := hc.each i id v hid hv
    exact ⟨u, hqu, hut, hx, hue.trans he.symm, hus.trans hs.symm, hur, hua⟩
  | callCc site =>
    obtain ⟨_, hr, k, cont, rfl, hget, hstack⟩ := hc
    refine ⟨k, hr, ?_⟩
    have hadv := h.later hl
    have hd := hadv.orderly.coherent.sound.depths _ _ ((Heap.get?_continuation_iff _ _ _).mp hget).2
    rw [hstack, ← hs] at hd
    rw [hget, ← hd.unique (h.settled.depth.mono (hadv.keeps h hepoch)), hs, ← hstack]

/-- What holds whenever control is in an activation of the body `es`: at the return and at a call in
tail position the control stack is as it was at the beginning, and at the call its arguments have
been collected. -/
theorem Enters.keeps_stack {p q : Dialogue} {c : Closure} (he : p.Enters c q) (hp : p.Orderly)
    (hq : q.Orderly) {es : List Expr} {exit : NodeId} {tails : List TailCall}
    (hb : q.code.Body es exit c.body tails) {t : Dialogue} (hl : q.Later t)
    (henv : t.regs.e = q.regs.e) :
    (t.regs.x = exit → q.SameStack t) ∧
      ∀ call ∈ tails, t.regs.x = call.site → q.SameStack t ∧ q.Supplied t call := by
  have hm := he.machine_eq hp
  have hsettled : p.machine.tick.Settled := hp.settled.congr rfl rfl rfl rfl
  have hstart := Activation.tracks_entered hsettled hb (q.Between q)
  rw [← hm] at hstart
  have hb' := hb.mono (hq.later hl).grows
  have hqe : q.regs.e = some ⟨⟨p.machine.heap.used, p.machine.heap.generation⟩⟩ := by
    rw [regs, hm]
    rfl
  have hqs : q.regs.s = p.regs.s := by
    rw [regs, hm]
    rfl
  have hte := henv.trans hqe
  have hepoch := (hq.later hl).orderly.epoch_eq hq hte hqe
  have htracks := hq.tracks_later hstart hl hepoch
  constructor
  · rintro rfl
    exact hq.sameStack hl hepoch ((htracks.at_ret hte hb'.1).2.trans hqs.symm)
  · intro call hcall hx
    obtain ⟨-, hi, hes⟩ := hb'
    have hnode : t.code.node? t.regs.x = some .apply := by
      rw [hx]
      exact hes.tail_apply call hcall
    obtain ⟨hsup, hs⟩ := htracks.at_tail hte hnode
      (fun _ hu _ hv hsite => hb.tail_eq hu hv hsite) hcall hx
    exact ⟨hq.sameStack hl hepoch (hs.trans hqs.symm), hq.supplied hl hepoch hqe hqs hsup⟩

/-- `n` calls in tail position lead from the entry `q` of the body of `c` to the entry `t` of that
of `c'`. -/
inductive TailCalls (q : Dialogue) (c : Closure) : Nat → Dialogue → Closure → Prop
  | none : TailCalls q c 0 q c
  | next {n : Nat} {t u v : Dialogue} {c' c'' : Closure} {es : List Expr} {exit : NodeId}
    {tails : List TailCall} {call : TailCall} : TailCalls q c n t c' →
    t.code.Body es exit c'.body tails → t.Later u → u.regs.e = t.regs.e → call ∈ tails →
    u.regs.x = call.site → u.Enters c'' v → TailCalls q c (n + 1) v c''

/-- Entering a body leaves the control stack as it is. -/
theorem Enters.sameStack {p q : Dialogue} {c : Closure} (he : p.Enters c q) (hp : p.Orderly) :
    p.SameStack q := by
  have hm := he.machine_eq hp
  constructor
  · rw [regs, hm]
    rfl
  · rw [hm]
    rfl

theorem Enters.move {p q : Dialogue} {c : Closure} (he : p.Enters c q) : Move p q := by
  rw [he.next]
  exact .step p

/-- At the end of a chain of tail calls there is the entry of a body, on the stack of the first. -/
theorem TailCalls.sameStack {p q t : Dialogue} {c c' : Closure} {n : Nat}
    (h : TailCalls q c n t c') (hp : p.Reachable) (he : p.Enters c q) :
    q.SameStack t ∧ ∃ u : Dialogue, u.Reachable ∧ u.Enters c' t := by
  induction h with
  | none => exact ⟨⟨rfl, rfl⟩, p, hp, he⟩
  | next _ hb hl henv hcall hx hent ih =>
    obtain ⟨⟨hs, hd⟩, u, hu, hut⟩ := ih
    have ht := hu.move hut.move
    obtain ⟨hs', hd'⟩ := ((hut.keeps_stack hu.orderly ht.orderly hb hl henv).2 _ hcall hx).1
    have hlast := ht.later hl
    obtain ⟨hs'', hd''⟩ := hent.sameStack hlast.orderly
    exact ⟨⟨hs''.trans (hs'.trans hs), hd''.trans (hd'.trans hd)⟩, _, hlast, hent⟩

end Dialogue

open Dialogue

/-- In every dialogue, when a closure is applied its body is entered with some control stack. The
body was placed by lowering, and whatever happens later, whenever control is in this activation and
at its return or at a call in tail position, the control stack and its depth are those of the
beginning; at the call exactly its arguments have been collected. Any number of calls in tail
position leads to a body that is entered with the same stack. -/
theorem tail_calls_keep_the_stack {p q : Dialogue} {c : Closure} (hp : p.Reachable)
    (he : p.Enters c q) :
    (∃ es exit tails, q.code.Body es exit c.body tails) ∧
      (∀ es exit tails, q.code.Body es exit c.body tails →
        ∀ t, q.Later t → t.regs.e = q.regs.e →
          (t.regs.x = exit → q.SameStack t) ∧
          ∀ call ∈ tails, t.regs.x = call.site → q.SameStack t ∧ q.Supplied t call) ∧
      ∀ n t c', TailCalls q c n t c' → q.SameStack t := by
  have hq := hp.move he.move
  refine ⟨?_, ?_, ?_⟩
  · obtain ⟨ref, -, hget⟩ := he.callee
    have hcell := ((Heap.get?_closure_iff _ _ _).mp hget).2
    obtain ⟨-, es, exit, tails, hbody⟩ := hp.orderly.housed.closures _ c hcell
    exact ⟨es, exit, tails, hbody.mono (hp.orderly.move he.move).grows⟩
  · intro es exit tails hb t hl henv
    exact he.keeps_stack hp.orderly hq.orderly hb hl henv
  · intro n t c' hn
    exact (hn.sameStack hp he).1

/-! ## A relay -/

/-- A procedure that calls itself in tail position, first directly and then with the current
continuation. -/
def relayText : String := "(define f (lambda (n) (if n (call/cc f) (f 1)))) (f #f)"

def relayCompiled : Dialogue := compiled ⟨smallSession.1, smallSession.2, ⟨2⟩⟩ relayText

/-- The states that the text goes through, step after step. -/
def relay : Nat → Dialogue
  | 0 => relayCompiled.withMachine (relayCompiled.machine.start 18)
  | n + 1 => (relay n).stepped

def relayClosure : Closure := ⟨0, 17, none⟩

theorem relay_code (n : Nat) : (relay n).code =
    { nodes := #[.halt, .apply, .refer 15 1, .argument 2, .constant (.bool false) 3, .frame 0 4,
        .assign 15 5, .ret, .apply, .refer 15 8, .argument 9, .conti 10, .apply, .refer 15 12,
        .argument 13, .constant (.int 1) 14, .test 11 15, .refer 16 16, .close 0 17 6],
      formals := #[[16]] } := by
  induction n with
  | zero => decide +kernel
  | succ n ih => exact ih

/-- The run goes on for 19 steps; the first, the second and the third call of the procedure are at
the steps 6, 12 and 18. -/
theorem relay_trace :
    (∀ n < 19, ((relay n).machine.step (relay n).code).1 = .ok .running) ∧
      (∀ n ∈ [6, 12, 18], (relay n).regs.a = .closure ⟨⟨0, 1⟩⟩ ∧
        (relay n).machine.heap.get? (⟨⟨0, 1⟩⟩ : Ref Closure) = some relayClosure) ∧
      (relay 6).regs.x = 1 ∧ (relay 12).regs.x = 12 ∧ (relay 18).regs.x = 8 ∧
      (relay 12).regs.e = (relay 7).regs.e ∧ (relay 18).regs.e = (relay 13).regs.e ∧
      (relay 12).regs.r = [.int 1] ∧ (relay 19).machine.depth = 1 := by
  decide +kernel

theorem relay_later {m n : Nat} (h : m ≤ n) : (relay m).Later (relay n) := by
  induction h with
  | refl => exact .refl
  | @step n _ ih => exact ih.tail (.step (relay n))

theorem relay_compiled : (smallSession.1.compile smallSession.2 relayText).1 = some 18 ∧
    (compiled ⟨smallSession.1, smallSession.2, ⟨2⟩⟩ relayText).code.size < wordLimit := by
  decide +kernel

theorem relay_reachable (n : Nat) : (relay n).Reachable := by
  obtain ⟨gens, hcreate⟩ := smallSession_created
  obtain rfl : gens = ⟨2⟩ := by
    have hissued : ((Session.create { arena := .ofBlocks 64 } Arithmetic.procedures {} {}).1.map
        Prod.snd).toOption = some ⟨2⟩ := by decide +kernel
    rw [hcreate] at hissued
    exact Option.some.inj hissued
  have hcreated := Reachable.create (by decide) hcreate
  obtain ⟨hword, es, himp⟩ := hcreated.orderly.implements relay_compiled.1 relay_compiled.2
  have hcompiled : relayCompiled.Reachable := hcreated.move (.compile _ _)
  have hstart : (relay 0).Reachable := hcompiled.move (.start _ hword himp)
  exact hstart.later (relay_later (Nat.zero_le n))

theorem relay_body (n : Nat) :
    (relay n).code.Body
      [.conditional (.variable "n") (.callCc (.variable "f"))
        (.call (.variable "f") [.literal (.int 1)])]
      7 17 [.callCc 8, .call 12 [14]] := by
  rw [relay_code]
  refine ⟨rfl, 18, .cons .nil (.conditional (.callCc rfl (.variable rfl) rfl rfl ?_)
    (.call rfl (.variable rfl) (.cons .nil rfl (.literal rfl)) ?_) rfl (.variable rfl))⟩
  · exact .inl ⟨rfl, rfl, rfl⟩
  · exact .inl ⟨rfl, rfl, rfl⟩

theorem relay_enters {n : Nat} (hn : n ∈ [6, 12, 18])
    (hx : (relay n).code.node? (relay n).regs.x = some .apply) :
    (relay n).Enters relayClosure (relay (n + 1)) := by
  obtain ⟨ha, hc⟩ := relay_trace.2.1 n hn
  refine ⟨hx, ⟨_, ha, hc⟩, relay_trace.1 n ?_, rfl⟩
  simp only [List.mem_cons, List.not_mem_nil, or_false] at hn
  omega

/-- The first activation makes its tail call on the stack it was entered with, and after two tail
calls the stack is still the same. -/
theorem tail_calls_keep_the_stack_relay :
    (relay 6).Reachable ∧ (relay 6).Enters relayClosure (relay 7) ∧
      (relay 12).regs.x = 12 ∧ (relay 7).SameStack (relay 12) ∧
      (relay 7).Supplied (relay 12) (.call 12 [14]) ∧ (relay 12).regs.r = [.int 1] ∧
      TailCalls (relay 7) relayClosure 2 (relay 19) relayClosure ∧
      (relay 7).SameStack (relay 19) ∧ (relay 19).machine.depth = 1 := by
  obtain ⟨-, -, hx6, hx12, hx18, he12, he18, hr12, hd19⟩ := relay_trace
  have hr : (relay 6).Reachable := relay_reachable 6
  have h6 : (relay 6).Enters relayClosure (relay 7) :=
    relay_enters (by decide) (by rw [hx6, relay_code]; rfl)
  have h12 : (relay 12).Enters relayClosure (relay 13) :=
    relay_enters (by decide) (by rw [hx12, relay_code]; rfl)
  have h18 : (relay 18).Enters relayClosure (relay 19) :=
    relay_enters (by decide) (by rw [hx18, relay_code]; rfl)
  have hl12 : (relay 7).Later (relay 12) := relay_later (by decide)
  have hl18 : (relay 13).Later (relay 18) := relay_later (by decide)
  have hcall : TailCall.call 12 [14] ∈ [.callCc 8, .call 12 [14]] := by decide
  have hchain : TailCalls (relay 7) relayClosure 2 (relay 19) relayClosure :=
    .next (.next .none (relay_body 7) hl12 he12 hcall hx12 h12)
      (relay_body 13) hl18 he18 List.mem_cons_self hx18 h18
  obtain ⟨-, hactivation, hchains⟩ := tail_calls_keep_the_stack hr h6
  obtain ⟨hsame, hsupplied⟩ := (hactivation _ _ _ (relay_body 7) _ hl12 he12).2 _ hcall hx12
  exact ⟨hr, h6, hx12, hsame, hsupplied, hr12, hchain, hchains 2 _ _ hchain, hd19⟩

end ClosureMachine
