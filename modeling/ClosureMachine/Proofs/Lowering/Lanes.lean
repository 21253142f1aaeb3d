import Mathlib.Data.List.Nodup
import ClosureMachine.Proofs.Lowering.Placed
import ClosureMachine.Proofs.Machine.Shift

/-!
Where control is bound for within one activation of a body. `Code.Lane c tails goal x` says that
from `x` on, while no frame of the activation is pushed or popped for good, control comes to the
return of the body or to one particular call; calls that have a frame around them are taken as one
instruction. A body begins on the lane to its return (`Code.Body.lane`). A lane tells which
instructions may follow (`Lane.pass`, `Lane.collects`, `Lane.pushes`), and what is to be done at
the end of it: at a return there is no call to be made, and at a call it is the one that the lane
leads to.
-/

namespace ClosureMachine

namespace Code

/-- What control is bound for: the return of the body, or the call at `site` when its arguments at
`args` are still to be collected. -/
inductive Goal where
  | exit
  | call (site : NodeId) (args : List NodeId)

inductive Lane (c : Code) (tails : List TailCall) : Goal → NodeId → Prop
  | ret {x : NodeId} : c.node? x = some .ret → c.Lane tails .exit x
  | apply {x : NodeId} : c.node? x = some .apply → c.Lane tails (.call x []) x
  | argument {x next site : NodeId} {args : List NodeId} : c.node? x = some (.argument next) →
    c.Lane tails (.call site args) next → c.Lane tails (.call site (x :: args)) x
  | onward {g : Goal} {x : NodeId} {n : Node} : c.node? x = some n → n.onward ≠ [] →
    (∀ y ∈ n.onward, c.Lane tails g y) → c.Lane tails g x
  /-- A call that is not in tail position comes back to `returnTo`. -/
  | frame {g : Goal} {x returnTo next site : NodeId} {args : List NodeId} :
    c.node? x = some (.frame returnTo next) → c.Lane tails (.call site args) next →
    (∀ t ∈ tails, t.site ≠ site) → c.Lane tails g returnTo → c.Lane tails g x
  /-- A call in tail position stands for the return. -/
  | tail {x site : NodeId} {args : List NodeId} : .call site args ∈ tails →
    c.Lane tails (.call site args) x → c.Lane tails .exit x
  | capture {x arg callee site : NodeId} : .callCc site ∈ tails → c.node? x = some (.conti arg) →
    c.node? arg = some (.argument callee) → c.Lane tails (.call site []) callee →
    c.Lane tails .exit x

theorem Lane.mono {c c' : Code} (hg : c.Grows c') {tails : List TailCall} {g : Goal} {x : NodeId}
    (h : c.Lane tails g x) : c'.Lane tails g x := by
  induction h with
  | ret hn => exact .ret (hg.node? hn)
  | apply hn => exact .apply (hg.node? hn)
  | argument hn _ ih => exact .argument (hg.node? hn) ih
  | onward hn hne _ ih => exact .onward (hg.node? hn) hne ih
  | frame hn _ hsite _ ih ih' => exact .frame (hg.node? hn) ih hsite ih'
  | tail ht _ ih => exact .tail ht ih
  | capture ht hn harg _ ih => exact .capture ht (hg.node? hn) (hg.node? harg) ih

/-! ## Following a lane -/

section Follow

variable {c : Code} {tails : List TailCall} {g : Goal} {x site : NodeId} {args : List NodeId}

/-- An instruction that concerns neither arguments nor frames leads on along the lane. Only a call
with the current continuation in tail position is entered here. -/
theorem Lane.pass (h : c.Lane tails g x) {n : Node} {y : NodeId} (hn : c.node? x = some n)
    (hy : y ∈ n.onward) : c.Lane tails g y ∨
      g = .exit ∧ n = .conti y ∧ ∃ site callee, .callCc site ∈ tails ∧
        c.node? y = some (.argument callee) ∧ c.Lane tails (.call site []) callee := by
  induction h with
  | ret hx | apply hx | argument hx _ _ | frame hx _ _ _ _ _ =>
    cases hx.symm.trans hn
    cases hy
  | onward hx _ h _ =>
    cases hx.symm.trans hn
    exact .inl (h y hy)
  | tail ht _ ih =>
    rcases ih hn with h | ⟨hg, -⟩
    · exact .inl (.tail ht h)
    · cases hg
  | capture ht hx harg h _ =>
    cases hx.symm.trans hn
    cases List.mem_singleton.mp hy
    exact .inr ⟨rfl, rfl, _, _, ht, harg, h⟩

theorem Lane.collects (h : c.Lane tails (.call site args) x) {next : NodeId}
    (hn : c.node? x = some (.argument next)) :
    ∃ rest, args = x :: rest ∧ c.Lane tails (.call site rest) next := by
  cases h with
  | argument hx h =>
    cases hx.symm.trans hn
    exact ⟨_, rfl, h⟩
  | apply hx | frame hx _ _ _ => cases hx.symm.trans hn
  | onward hx hne _ =>
    cases hx.symm.trans hn
    exact absurd rfl hne

/-- On the lane to the return, arguments are those of a call in tail position. -/
theorem Lane.collects_tail (h : c.Lane tails .exit x) {next : NodeId}
    (hn : c.node? x = some (.argument next)) :
    ∃ site rest, .call site (x :: rest) ∈ tails ∧ c.Lane tails (.call site rest) next := by
  cases h with
  | tail ht h =>
    obtain ⟨rest, rfl, hnext⟩ := h.collects hn
    exact ⟨_, rest, ht, hnext⟩
  | ret hx | frame hx _ _ _ | capture _ hx _ _ => cases hx.symm.trans hn
  | onward hx hne _ =>
    cases hx.symm.trans hn
    exact absurd rfl hne

/-- A frame is pushed for a call that is not in tail position, and comes back to the lane. -/
theorem Lane.pushes (h : c.Lane tails g x) {returnTo next : NodeId}
    (hn : c.node? x = some (.frame returnTo next)) :
    (∃ site args, c.Lane tails (.call site args) next ∧ ∀ t ∈ tails, t.site ≠ site) ∧
      c.Lane tails g returnTo := by
  induction h with
  | ret hx | apply hx | argument hx _ _ | capture _ hx _ _ _ => cases hx.symm.trans hn
  | onward hx hne _ _ =>
    cases hx.symm.trans hn
    exact absurd rfl hne
  | frame hx h hsite h' _ _ =>
    cases hx.symm.trans hn
    exact ⟨⟨_, _, h, hsite⟩, h'⟩
  | tail ht _ ih => exact ⟨(ih hn).1, .tail ht (ih hn).2⟩

theorem Lane.at_apply (h : c.Lane tails (.call site args) x) (hn : c.node? x = some .apply) :
    x = site ∧ args = [] := by
  cases h with
  | apply _ => exact ⟨rfl, rfl⟩
  | argument hx _ | frame hx _ _ _ => cases hx.symm.trans hn
  | onward hx hne _ =>
    cases hx.symm.trans hn
    exact absurd rfl hne

theorem Lane.at_tail_apply (h : c.Lane tails .exit x) (hn : c.node? x = some .apply) :
    .call x [] ∈ tails := by
  cases h with
  | tail ht h =>
    obtain ⟨rfl, rfl⟩ := h.at_apply hn
    exact ht
  | ret hx | frame hx _ _ _ | capture _ hx _ _ => cases hx.symm.trans hn
  | onward hx hne _ =>
    cases hx.symm.trans hn
    exact absurd rfl hne

theorem Lane.not_ret (h : c.Lane tails (.call site args) x) : c.node? x ≠ some .ret := by
  intro hn
  cases h with
  | apply hx | argument hx _ | frame hx _ _ _ => cases hx.symm.trans hn
  | onward hx hne _ =>
    cases hx.symm.trans hn
    exact absurd rfl hne

end Follow

/-! ## Lanes through placed code -/

section Placed

variable {c : Code} {tails : List TailCall}

theorem Lane.one {g : Goal} {x y : NodeId} {n : Node} (hn : c.node? x = some n)
    (ho : n.onward = [y]) (h : c.Lane tails g y) : c.Lane tails g x := by
  refine .onward hn (by simp [ho]) ?_
  intro z hz
  rw [ho] at hz
  cases List.mem_singleton.mp hz
  exact h

theorem Lane.two {g : Goal} {x onTrue onFalse : NodeId}
    (hn : c.node? x = some (.test onTrue onFalse)) (ht : c.Lane tails g onTrue)
    (hf : c.Lane tails g onFalse) : c.Lane tails g x := by
  refine .onward hn nofun ?_
  simp only [Node.onward, List.mem_cons, List.not_mem_nil, or_false]
  rintro y (rfl | rfl)
  · exact ht
  · exact hf

/-- No call in tail position lies between two positions. -/
def Clear (tails : List TailCall) (lo hi : Nat) : Prop :=
  ∀ t ∈ tails, ¬ (lo ≤ t.site ∧ t.site < hi)

theorem Clear.mono {lo hi lo' hi' : Nat} (h : Clear tails lo hi) (hlo : lo ≤ lo')
    (hhi : hi' ≤ hi) : Clear tails lo' hi' := by
  intro t ht hin
  exact h t ht (by omega)

end Placed

end Code

open Code

section Placed

variable {c : Code} {tails : List TailCall}

mutual

/-- Code that is not in tail position leads to what follows it. -/
theorem Placed.lane {e : Expr} {lo hi : Nat} {next start : NodeId} {ts : List TailCall}
    {g : Goal} : Placed c e lo hi next start ts → c.node? next ≠ some .ret → Clear tails lo hi →
    c.Lane tails g next → c.Lane tails g start
  | .literal hn, _, _, h | .variable hn, _, _, h | .lambda _ _ hn, _, _, h => .one hn rfl h
  | .conditional hyes hno hn hcond, hne, hclear, h => by
    have := hyes.le
    have := hno.le
    have := hcond.le
    have htrue := hyes.lane hne (hclear.mono (Nat.le_refl _) (by omega)) h
    have hfalse := hno.lane hne (hclear.mono (by omega) (by omega)) h
    exact hcond.lane (by rw [hn]; nofun) (hclear.mono (by omega) (Nat.le_refl _))
      (.two hn htrue hfalse)
  | .assign hn he, _, hclear, h | .define hn he, _, hclear, h =>
    he.lane (by rw [hn]; nofun) (hclear.mono (Nat.le_succ _) (Nat.le_refl _)) (.one hn rfl h)
  | .sequence hes, hne, hclear, h => hes.lane hne hclear h
  | .callCc hcall he harg hn hb, hne, hclear, h => by
    have := he.le
    have := hb.le
    rcases hb with ⟨hret, -, -⟩ | ⟨_, -, -, hframe, -, rfl⟩
    · exact absurd hret hne
    · have hcallee := he.lane (by rw [hcall]; nofun) (hclear.mono (by omega) (by omega))
        (.apply hcall)
      exact .frame hframe (.one hn rfl (.argument harg hcallee))
        (fun t ht heq => hclear t ht (by omega)) h
  | .call hcall he hargs hb, hne, hclear, h => by
    have := he.le
    have := hargs.le
    have := hb.le
    rcases hb with ⟨hret, -, -⟩ | ⟨_, -, -, hframe, -, rfl⟩
    · exact absurd hret hne
    · have hcallee := he.lane (by rw [hcall]; nofun) (hclear.mono (by omega) (by omega))
        (.apply hcall)
      exact .frame hframe (hargs.lane (hclear.mono (by omega) (by omega)) hcallee)
        (fun t ht heq => hclear t ht (by omega)) h

theorem PlacedAll.lane {es : List Expr} {lo hi : Nat} {next start : NodeId} {ts : List TailCall}
    {g : Goal} : PlacedAll c es lo hi next start ts → c.node? next ≠ some .ret →
    Clear tails lo hi → c.Lane tails g next → c.Lane tails g start
  | .nil, _, _, h => h
  | .cons hrest he, hne, hclear, h => by
    have hle := hrest.le
    have hle' := he.le
    have hlane := hrest.lane hne (hclear.mono (Nat.le_refl _) hle') h
    refine he.lane ?_ (hclear.mono hle (Nat.le_refl _)) hlane
    rcases hrest.start_ne_ret with rfl | hrestne
    · exact hne
    · exact hrestne

/-- Arguments lead to the call when those after them do. -/
theorem PlacedArgs.lane {es : List Expr} {lo hi : Nat} {next start site : NodeId}
    {ids : List NodeId} : PlacedArgs c es lo hi next start ids → Clear tails lo hi →
    c.Lane tails (.call site []) next → c.Lane tails (.call site ids) start
  | .nil, _, h => h
  | .cons hrest hn he, hclear, h => by
    have := hrest.le
    have := he.le
    have hlane := hrest.lane (hclear.mono (Nat.le_refl _) (by omega)) h
    exact he.lane (by rw [hn]; nofun) (hclear.mono (by omega) (Nat.le_refl _))
      (.argument hn hlane)

end

/-- The calls in tail position between two positions are `ts`. -/
structure Owns (tails : List TailCall) (lo hi : Nat) (ts : List TailCall) : Prop where
  mem : ∀ t ∈ ts, t ∈ tails
  only : ∀ t ∈ tails, lo ≤ t.site → t.site < hi → t ∈ ts

/-- A part to which none of the calls belongs. -/
theorem Owns.clear {lo hi lo' hi' : Nat} {ts : List TailCall} (h : Owns tails lo hi ts)
    (hlo : lo ≤ lo') (hhi : hi' ≤ hi) (hts : ∀ t ∈ ts, ¬ (lo' ≤ t.site ∧ t.site < hi')) :
    Clear tails lo' hi' := by
  intro t ht hin
  exact hts t (h.only t ht (by omega) (by omega)) hin

/-- What comes after the only call. -/
theorem Owns.clear_after {lo hi lo' hi' : Nat} {t : TailCall} (h : Owns tails lo hi [t])
    (ht : t.site < lo') (hlo : lo ≤ lo') (hhi : hi' ≤ hi) : Clear tails lo' hi' := by
  refine h.clear hlo hhi fun u hu hin => ?_
  cases List.mem_singleton.mp hu
  omega

theorem Owns.left {lo mid hi : Nat} {ts us : List TailCall} (h : Owns tails lo hi (ts ++ us))
    (hle : mid ≤ hi) (hus : ∀ u ∈ us, mid ≤ u.site) : Owns tails lo mid ts where
  mem t ht := h.mem t (List.mem_append_left _ ht)
  only t ht hlo hlt := by
    rcases List.mem_append.mp (h.only t ht hlo (by omega)) with hm | hm
    · exact hm
    · have := hus t hm
      omega

theorem Owns.right {lo mid mid' hi : Nat} {ts us : List TailCall}
    (h : Owns tails lo hi (ts ++ us)) (hle : lo ≤ mid) (hle' : mid' ≤ hi)
    (hts : ∀ t ∈ ts, t.site < mid) : Owns tails mid mid' us where
  mem t ht := h.mem t (List.mem_append_right _ ht)
  only t ht hlo hlt := by
    rcases List.mem_append.mp (h.only t ht (by omega) (by omega)) with hm | hm
    · have := hts t hm
      omega
    · exact hm

mutual

/-- Code in tail position leads to the return, directly or by a call. -/
theorem Placed.tail_lane {e : Expr} {lo hi : Nat} {next start : NodeId} {ts : List TailCall} :
    Placed c e lo hi next start ts → c.node? next = some .ret → Owns tails lo hi ts →
    c.Lane tails .exit start
  | .literal hn, hret, _ | .variable hn, hret, _ | .lambda _ _ hn, hret, _ =>
    .one hn rfl (.ret hret)
  | .conditional hyes hno hn hcond, hret, howns => by
    have := hyes.le
    have := hno.le
    have := hcond.le
    have htrue := hyes.tail_lane hret
      (howns.left (by omega) fun u hu => (hno.tail_bounds u hu).1)
    have hfalse := hno.tail_lane hret
      (howns.right (by omega) (by omega) fun t ht => (hyes.tail_bounds t ht).2)
    refine hcond.lane (by rw [hn]; nofun) (howns.clear (by omega) (Nat.le_refl _) ?_)
      (.two hn htrue hfalse)
    intro t ht hin
    rcases List.mem_append.mp ht with ht | ht
    · have := hyes.tail_bounds t ht
      omega
    · have := hno.tail_bounds t ht
      omega
  | .assign hn he, hret, howns | .define hn he, hret, howns =>
    he.lane (by rw [hn]; nofun) (howns.clear (Nat.le_succ _) (Nat.le_refl _) nofun)
      (.one hn rfl (.ret hret))
  | .sequence hes, hret, howns => hes.tail_lane hret howns
  | .callCc hcall he harg hn hb, hret, howns => by
    have := hb.le
    have hcallee := he.lane (by rw [hcall]; nofun)
      (howns.clear_after (Nat.lt_succ_self _) (Nat.le_succ _) (by omega)) (.apply hcall)
    rcases hb with ⟨-, -, rfl⟩ | ⟨_, hnext, hne, -⟩
    · exact .capture (howns.mem _ (List.mem_singleton_self _)) hn harg hcallee
    · exact absurd (Option.some.inj (hnext.symm.trans hret)) hne
  | .call hcall he hargs hb, hret, howns => by
    have := he.le
    have := hargs.le
    have := hb.le
    have hcallee := he.lane (by rw [hcall]; nofun)
      (howns.clear_after (Nat.lt_succ_self _) (Nat.le_succ _) (by omega)) (.apply hcall)
    rcases hb with ⟨-, -, rfl⟩ | ⟨_, hnext, hne, -⟩
    · exact .tail (howns.mem _ (List.mem_singleton_self _))
        (hargs.lane (howns.clear_after he.le (by omega) (by omega)) hcallee)
    · exact absurd (Option.some.inj (hnext.symm.trans hret)) hne

theorem PlacedAll.tail_lane {es : List Expr} {lo hi : Nat} {next start : NodeId}
    {ts : List TailCall} : PlacedAll c es lo hi next start ts → c.node? next = some .ret →
    Owns tails lo hi ts → c.Lane tails .exit start
  | .nil, hret, _ => .ret hret
  | @PlacedAll.cons _ _ _ lo mid hi next rest start ts more hrest he, hret, howns => by
    have hle := hrest.le
    have hle' := he.le
    by_cases heq : rest = next
    · rw [if_pos heq] at howns
      exact he.tail_lane (heq ▸ hret)
        (howns.right hle (Nat.le_refl _) fun t ht => (hrest.tail_bounds t ht).2)
    · rw [if_neg heq] at howns
      have hmore : Owns tails lo mid more :=
        ⟨howns.mem, fun t ht hlo hlt => howns.only t ht hlo (by omega)⟩
      refine he.lane (hrest.start_ne_ret.resolve_left heq)
        (howns.clear hle (Nat.le_refl _) ?_) (hrest.tail_lane hret hmore)
      intro t ht hin
      have := hrest.tail_bounds t ht
      omega

end

/-- A body begins on the lane to its return. -/
theorem Code.Body.lane {es : List Expr} {exit entry : NodeId} (h : c.Body es exit entry tails) :
    c.Lane tails .exit entry := by
  obtain ⟨hret, hi, hes⟩ := h
  exact hes.tail_lane hret ⟨fun _ ht => ht, fun _ ht _ _ => ht⟩

/-- No two calls in tail position are at one instruction. -/
theorem Code.Body.tail_eq {es : List Expr} {exit entry : NodeId} (h : c.Body es exit entry tails)
    {t u : TailCall} (ht : t ∈ tails) (hu : u ∈ tails) (hsite : t.site = u.site) : t = u := by
  obtain ⟨-, hi, hes⟩ := h
  exact List.inj_on_of_nodup_map hes.tails_nodup ht hu hsite

end Placed

end ClosureMachine
