import ClosureMachine.Proofs.Code.Growth
import ClosureMachine.Proofs.Meaning.Expr

/-!
Where the code of an expression lies. `Placed c e lo hi next start tails` says that the instructions
at the positions from `lo` up to `hi` are those of `e`, that they begin at `start` and go on at
`next`, and that `tails` are the calls in tail position. Every instruction belongs to one
subexpression only, so a call in tail position is none of those that an argument, an operator or a
condition makes (`Placed.tail_bounds`), and no two of them are at the same instruction
(`Placed.tails_nodup`).
-/

namespace ClosureMachine

/-- A call in tail position, known by the instruction that applies its operator. -/
inductive TailCall where
  /-- The arguments are collected at the instructions `args`. -/
  | call (site : NodeId) (args : List NodeId)
  /-- A call with the current continuation. -/
  | callCc (site : NodeId)
  deriving DecidableEq, Repr

def TailCall.site : TailCall → Nat
  | call site _ | callCc site => site

/-- From `start` on there is the call at `inner`. It has a frame around it, at `lo`, exactly if
`next` does not return. -/
def Code.Encloses (c : Code) (lo hi : Nat) (next inner start : NodeId) : Prop :=
  (c.node? next = some .ret ∧ hi = lo ∧ start = inner) ∨
    ∃ n, c.node? next = some n ∧ n ≠ .ret ∧ c.node? lo = some (.frame next inner) ∧
      hi = lo + 1 ∧ start = lo

mutual

inductive Placed (c : Code) : Expr → Nat → Nat → NodeId → NodeId → List TailCall → Prop
  | literal {d : Datum} {v : Value} {lo next : NodeId} : c.node? lo = some (.constant v next) →
    Placed c (.literal d) lo (lo + 1) next lo []
  | variable {name : String} {id : SymbolId} {lo next : NodeId} :
    c.node? lo = some (.refer id next) → Placed c (.variable name) lo (lo + 1) next lo []
  | lambda {params : List String} {body : List Expr} {f : FormalsId} {lo hi next entry : NodeId}
    {tails : List TailCall} : c.node? lo = some .ret → PlacedAll c body (lo + 1) hi lo entry tails →
    c.node? hi = some (.close f entry next) → Placed c (.lambda params body) lo (hi + 1) next hi []
  | conditional {condition yes no : Expr} {lo mid test hi next onTrue onFalse start : NodeId}
    {yesTails noTails tails : List TailCall} : Placed c yes lo mid next onTrue yesTails →
    Placed c no mid test next onFalse noTails → c.node? test = some (.test onTrue onFalse) →
    Placed c condition (test + 1) hi test start tails →
    Placed c (.conditional condition yes no) lo hi next start (yesTails ++ noTails)
  | assign {name : String} {id : SymbolId} {e : Expr} {lo hi next start : NodeId}
    {tails : List TailCall} : c.node? lo = some (.assign id next) →
    Placed c e (lo + 1) hi lo start tails → Placed c (.assign name e) lo hi next start []
  | define {name : String} {id : SymbolId} {e : Expr} {lo hi next start : NodeId}
    {tails : List TailCall} : c.node? lo = some (.assign id next) →
    Placed c e (lo + 1) hi lo start tails → Placed c (.define name e) lo hi next start []
  | sequence {es : List Expr} {lo hi next start : NodeId} {tails : List TailCall} :
    PlacedAll c es lo hi next start tails → Placed c (.sequence es) lo hi next start tails
  | callCc {e : Expr} {lo arg hi next callee start : NodeId} {tails : List TailCall} :
    c.node? lo = some .apply → Placed c e (lo + 1) arg lo callee tails →
    c.node? arg = some (.argument callee) → c.node? (arg + 1) = some (.conti arg) →
    c.Encloses (arg + 2) hi next (arg + 1) start →
    Placed c (.callCc e) lo hi next start [.callCc lo]
  | call {operator : Expr} {args : List Expr} {lo mid top hi next callee inner start : NodeId}
    {tails : List TailCall} {ids : List NodeId} : c.node? lo = some .apply →
    Placed c operator (lo + 1) mid lo callee tails →
    PlacedArgs c args mid top callee inner ids → c.Encloses top hi next inner start →
    Placed c (.call operator args) lo hi next start [.call lo ids]

/-- Expressions that are evaluated one after the other. One with no code after it is in tail
position. -/
inductive PlacedAll (c : Code) : List Expr → Nat → Nat → NodeId → NodeId → List TailCall → Prop
  | nil {lo next : NodeId} : PlacedAll c [] lo lo next next []
  | cons {e : Expr} {es : List Expr} {lo mid hi next rest start : NodeId}
    {tails more : List TailCall} : PlacedAll c es lo mid next rest more →
    Placed c e mid hi rest start tails →
    PlacedAll c (e :: es) lo hi next start (if rest = next then more ++ tails else more)

/-- Expressions whose values are collected as arguments, at the instructions `ids`. -/
inductive PlacedArgs (c : Code) : List Expr → Nat → Nat → NodeId → NodeId → List NodeId → Prop
  | nil {lo next : NodeId} : PlacedArgs c [] lo lo next next []
  | cons {e : Expr} {es : List Expr} {lo arg hi next rest start : NodeId} {ids : List NodeId}
    {tails : List TailCall} : PlacedArgs c es lo arg next rest ids →
    c.node? arg = some (.argument rest) → Placed c e (arg + 1) hi arg start tails →
    PlacedArgs c (e :: es) lo hi next start (arg :: ids)

end

/-- The body of a procedure: code that ends in a return of its own. -/
def Code.Body (c : Code) (es : List Expr) (exit entry : NodeId) (tails : List TailCall) : Prop :=
  c.node? exit = some .ret ∧ ∃ hi, PlacedAll c es (exit + 1) hi exit entry tails

/-! ## Growing code -/

section Mono

variable {c c' : Code} {lo hi : Nat} {next start : NodeId}

theorem Code.Encloses.mono (hc : c.Grows c') {inner : NodeId}
    (h : c.Encloses lo hi next inner start) : c'.Encloses lo hi next inner start := by
  rcases h with ⟨hret, hhi, hstart⟩ | ⟨n, hn, hne, hframe, hhi, hstart⟩
  · exact .inl ⟨hc.node? hret, hhi, hstart⟩
  · exact .inr ⟨n, hc.node? hn, hne, hc.node? hframe, hhi, hstart⟩

mutual

theorem Placed.mono (hc : c.Grows c') {e : Expr} {lo hi : Nat} {next start : NodeId}
    {tails : List TailCall} :
    Placed c e lo hi next start tails → Placed c' e lo hi next start tails
  | .literal hn => .literal (hc.node? hn)
  | .variable hn => .variable (hc.node? hn)
  | .lambda hret hb hn => .lambda (hc.node? hret) (hb.mono hc) (hc.node? hn)
  | .conditional hyes hno hn h =>
    .conditional (hyes.mono hc) (hno.mono hc) (hc.node? hn) (h.mono hc)
  | .assign hn h => .assign (hc.node? hn) (h.mono hc)
  | .define hn h => .define (hc.node? hn) (h.mono hc)
  | .sequence h => .sequence (h.mono hc)
  | .callCc hcall h harg hn hb =>
    .callCc (hc.node? hcall) (h.mono hc) (hc.node? harg) (hc.node? hn) (hb.mono hc)
  | .call hcall h hargs hb => .call (hc.node? hcall) (h.mono hc) (hargs.mono hc) (hb.mono hc)

theorem PlacedAll.mono (hc : c.Grows c') {es : List Expr} {lo hi : Nat} {next start : NodeId}
    {tails : List TailCall} :
    PlacedAll c es lo hi next start tails → PlacedAll c' es lo hi next start tails
  | .nil => .nil
  | .cons hrest h => .cons (hrest.mono hc) (h.mono hc)

theorem PlacedArgs.mono (hc : c.Grows c') {es : List Expr} {lo hi : Nat} {next start : NodeId}
    {ids : List NodeId} :
    PlacedArgs c es lo hi next start ids → PlacedArgs c' es lo hi next start ids
  | .nil => .nil
  | .cons hrest hn h => .cons (hrest.mono hc) (hc.node? hn) (h.mono hc)

end

theorem Code.Body.mono (hc : c.Grows c') {es : List Expr} {exit entry : NodeId}
    {tails : List TailCall} (h : c.Body es exit entry tails) : c'.Body es exit entry tails := by
  obtain ⟨hret, hi, hes⟩ := h
  exact ⟨hc.node? hret, hi, hes.mono hc⟩

end Mono

/-! ## Positions -/

section Positions

variable {c : Code}

theorem Code.Encloses.le {lo hi : Nat} {next inner start : NodeId}
    (h : c.Encloses lo hi next inner start) : lo ≤ hi := by
  rcases h with ⟨-, rfl, -⟩ | ⟨_, -, -, -, rfl, -⟩
  · exact Nat.le_refl _
  · exact Nat.le_succ _

mutual

theorem Placed.le {e : Expr} {lo hi : Nat} {next start : NodeId} {tails : List TailCall} :
    Placed c e lo hi next start tails → lo ≤ hi
  | .literal _ | .variable _ => Nat.le_succ _
  | .lambda _ hb _ => by
    have := hb.le
    omega
  | .conditional hyes hno _ h => by
    have := hyes.le
    have := hno.le
    have := h.le
    omega
  | .assign _ h | .define _ h => by
    have := h.le
    omega
  | .sequence h => h.le
  | .callCc _ h _ _ hb => by
    have := h.le
    have := hb.le
    omega
  | .call _ h hargs hb => by
    have := h.le
    have := hargs.le
    have := hb.le
    omega

theorem PlacedAll.le {es : List Expr} {lo hi : Nat} {next start : NodeId}
    {tails : List TailCall} : PlacedAll c es lo hi next start tails → lo ≤ hi
  | .nil => Nat.le_refl _
  | .cons hrest h => Nat.le_trans hrest.le h.le

theorem PlacedArgs.le {es : List Expr} {lo hi : Nat} {next start : NodeId} {ids : List NodeId} :
    PlacedArgs c es lo hi next start ids → lo ≤ hi
  | .nil => Nat.le_refl _
  | .cons hrest _ h => by
    have := hrest.le
    have := h.le
    omega

end

private theorem mem_of_mem_tails {rest next : NodeId} {t : TailCall} {more tails : List TailCall}
    (h : t ∈ if rest = next then more ++ tails else more) : t ∈ more ∨ t ∈ tails := by
  split at h
  · exact List.mem_append.mp h
  · exact .inl h

mutual

/-- A call in tail position lies within the code of the expression. -/
theorem Placed.tail_bounds {e : Expr} {lo hi : Nat} {next start : NodeId}
    {tails : List TailCall} : Placed c e lo hi next start tails →
    ∀ t ∈ tails, lo ≤ t.site ∧ t.site < hi
  | .literal _ | .variable _ | .lambda _ _ _ | .assign _ _ | .define _ _ => nofun
  | .conditional hyes hno _ h => by
    intro t ht
    have hle := hyes.le
    have hle' := hno.le
    have hle'' := h.le
    rcases List.mem_append.mp ht with ht | ht
    · have := hyes.tail_bounds t ht
      omega
    · have := hno.tail_bounds t ht
      omega
  | .sequence h => h.tail_bounds
  | .callCc _ h _ _ hb => by
    intro t ht
    cases List.mem_singleton.mp ht
    have := h.le
    have := hb.le
    simp only [TailCall.site]
    omega
  | .call _ h hargs hb => by
    intro t ht
    cases List.mem_singleton.mp ht
    have := h.le
    have := hargs.le
    have := hb.le
    simp only [TailCall.site]
    omega

theorem PlacedAll.tail_bounds {es : List Expr} {lo hi : Nat} {next start : NodeId}
    {tails : List TailCall} : PlacedAll c es lo hi next start tails →
    ∀ t ∈ tails, lo ≤ t.site ∧ t.site < hi
  | .nil => nofun
  | .cons hrest h => by
    intro t ht
    have hle := hrest.le
    have hle' := h.le
    rcases mem_of_mem_tails ht with ht | ht
    · have := hrest.tail_bounds t ht
      omega
    · have := h.tail_bounds t ht
      omega

end

mutual

/-- A call in tail position is made by an applying instruction. -/
theorem Placed.tail_apply {e : Expr} {lo hi : Nat} {next start : NodeId} {tails : List TailCall} :
    Placed c e lo hi next start tails → ∀ t ∈ tails, c.node? t.site = some .apply
  | .literal _ | .variable _ | .lambda _ _ _ | .assign _ _ | .define _ _ => nofun
  | .conditional hyes hno _ _ => by
    intro t ht
    rcases List.mem_append.mp ht with ht | ht
    · exact hyes.tail_apply t ht
    · exact hno.tail_apply t ht
  | .sequence h => h.tail_apply
  | .callCc hcall _ _ _ _ | .call hcall _ _ _ => by
    intro t ht
    cases List.mem_singleton.mp ht
    exact hcall

theorem PlacedAll.tail_apply {es : List Expr} {lo hi : Nat} {next start : NodeId}
    {tails : List TailCall} : PlacedAll c es lo hi next start tails →
    ∀ t ∈ tails, c.node? t.site = some .apply
  | .nil => nofun
  | .cons hrest h => by
    intro t ht
    rcases mem_of_mem_tails ht with ht | ht
    · exact hrest.tail_apply t ht
    · exact h.tail_apply t ht

end

private theorem nodup_append_of_bounds {ts us : List TailCall} {mid : Nat}
    (ht : (ts.map TailCall.site).Nodup) (hu : (us.map TailCall.site).Nodup)
    (hlt : ∀ t ∈ ts, t.site < mid) (hge : ∀ u ∈ us, mid ≤ u.site) :
    ((ts ++ us).map TailCall.site).Nodup := by
  rw [List.map_append]
  refine List.nodup_append.mpr ⟨ht, hu, ?_⟩
  intro a ha b hb heq
  obtain ⟨t, htm, rfl⟩ := List.mem_map.mp ha
  obtain ⟨u, hum, rfl⟩ := List.mem_map.mp hb
  have := hlt t htm
  have := hge u hum
  omega

mutual

theorem Placed.tails_nodup {e : Expr} {lo hi : Nat} {next start : NodeId}
    {tails : List TailCall} : Placed c e lo hi next start tails →
    (tails.map TailCall.site).Nodup
  | .literal _ | .variable _ | .lambda _ _ _ | .assign _ _ | .define _ _ => List.nodup_nil
  | .conditional hyes hno _ _ =>
    nodup_append_of_bounds hyes.tails_nodup hno.tails_nodup
      (fun t ht => (hyes.tail_bounds t ht).2) (fun u hu => (hno.tail_bounds u hu).1)
  | .sequence h => h.tails_nodup
  | .callCc _ _ _ _ _ | .call _ _ _ _ => List.nodup_cons.mpr ⟨nofun, List.nodup_nil⟩

theorem PlacedAll.tails_nodup {es : List Expr} {lo hi : Nat} {next start : NodeId}
    {tails : List TailCall} : PlacedAll c es lo hi next start tails →
    (tails.map TailCall.site).Nodup
  | .nil => List.nodup_nil
  | .cons hrest h => by
    split
    · exact nodup_append_of_bounds hrest.tails_nodup h.tails_nodup
        (fun t ht => (hrest.tail_bounds t ht).2) (fun u hu => (h.tail_bounds u hu).1)
    · exact hrest.tails_nodup

end

mutual

/-- Code does not begin with a return, unless there is none. -/
theorem Placed.start_ne_ret {e : Expr} {lo hi : Nat} {next start : NodeId}
    {tails : List TailCall} : Placed c e lo hi next start tails →
    start = next ∨ c.node? start ≠ some .ret
  | .literal hn | .variable hn | .lambda _ _ hn => .inr (by rw [hn]; nofun)
  | .conditional _ _ hn h | .assign hn h | .define hn h => by
    rcases h.start_ne_ret with rfl | h
    · exact .inr (by rw [hn]; nofun)
    · exact .inr h
  | .sequence h => h.start_ne_ret
  | .callCc _ _ _ hn hb => by
    rcases hb with ⟨-, -, rfl⟩ | ⟨_, -, -, hframe, -, rfl⟩
    · exact .inr (by rw [hn]; nofun)
    · exact .inr (by rw [hframe]; nofun)
  | .call hcall h hargs hb => by
    rcases hb with ⟨-, -, rfl⟩ | ⟨_, -, -, hframe, -, rfl⟩
    · rcases hargs.start_ne_ret with rfl | hne
      · rcases h.start_ne_ret with rfl | hne
        · exact .inr (by rw [hcall]; nofun)
        · exact .inr hne
      · exact .inr hne
    · exact .inr (by rw [hframe]; nofun)

theorem PlacedAll.start_ne_ret {es : List Expr} {lo hi : Nat} {next start : NodeId}
    {tails : List TailCall} : PlacedAll c es lo hi next start tails →
    start = next ∨ c.node? start ≠ some .ret
  | .nil => .inl rfl
  | .cons hrest h => by
    rcases h.start_ne_ret with rfl | hne
    · exact hrest.start_ne_ret
    · exact .inr hne

theorem PlacedArgs.start_ne_ret {es : List Expr} {lo hi : Nat} {next start : NodeId}
    {ids : List NodeId} : PlacedArgs c es lo hi next start ids →
    start = next ∨ c.node? start ≠ some .ret
  | .nil => .inl rfl
  | .cons _ hn h => by
    rcases h.start_ne_ret with rfl | hne
    · exact .inr (by rw [hn]; nofun)
    · exact .inr hne

end

end Positions

end ClosureMachine
