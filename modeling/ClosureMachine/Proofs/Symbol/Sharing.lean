import ClosureMachine.Proofs.Symbol.Interner

/-!
Interners that are shared. Any number of handles stand for one table, and calls through them come in
any order. A batch of calls has the table to itself until its last call is answered or refused, and
a call alone is a batch of one, so the calls on one table form a sequence, whatever handles they
come through. `Reachable` says which tables and handles there can be, next to a log of what was
asked of each table.

The main statement is `interning_is_consistent`. The two structures of a table undo each other at
all times. As long as no more different spellings are asked for than there are ids, nothing is
refused, every answer is the one that the calls before it demand (`Call.Right`), and the table lists
what was interned, in the order of first use.
-/

namespace ClosureMachine

namespace Interner

open SymbolTable (Batch Call Logged Request firstUses interned issue)

/-! ## Batches -/

/-- A request that was answered, or one that found the table full. -/
inductive Reply where
  | answered (c : Call)
  | refused (r : Request)

def Reply.request : Reply → Request
  | answered c => c.request
  | refused r => r

/-- What a batch asks of a table, in order, and the table after it. A refusal ends the batch. -/
def run : Batch → Interner → List Reply × Interner
  | .done, t => ([], t)
  | .ask r next, t =>
    match t.ask r with
    | (.ok answer, t) =>
      let (rest, t) := run (next answer) t
      (.answered ⟨r, answer⟩ :: rest, t)
    | (.error _, t) => ([.refused r], t)

/-- The spellings that were to be interned, each where it was first met. -/
def wanted (log : List Reply) : List String :=
  (log.filterMap fun e => match e.request with
    | .intern s => some s
    | _ => none).eraseDups

theorem wanted_append (log log' : List Reply) :
    ∃ more, wanted (log ++ log') = wanted log ++ more := by
  rw [wanted, List.filterMap_append, List.eraseDups_append]
  exact ⟨_, rfl⟩

theorem wanted_answered (calls : List Call) : wanted (calls.map .answered) = firstUses calls := by
  rw [wanted, List.filterMap_map]
  rfl

theorem wanted_length_le {log log' : List Reply} {n : Nat}
    (h : (wanted (log ++ log')).length ≤ n) : (wanted log).length ≤ n := by
  obtain ⟨more, hmore⟩ := wanted_append log log'
  rw [hmore, List.length_append] at h
  omega

/-! ## What the requests to one table leave behind -/

/-- The table after the requests in the log. While there are ids for all spellings, it holds what
the symbol table does, and nothing is refused. -/
structure Kept (log : List Reply) (t : Interner) : Prop where
  inverse : t.Inverse
  size_le : t.size ≤ wordLimit
  logged : (wanted log).length ≤ wordLimit →
    ∃ calls, log = calls.map .answered ∧ Logged calls t.table

namespace Kept

variable {log : List Reply} {t t' : Interner}

theorem start : Kept [] {} :=
  ⟨inverse_empty, Nat.zero_le _, fun _ => ⟨[], rfl, .start⟩⟩

theorem answer (h : Kept log t) {r : Request} {a : r.Answer} (hr : t.ask r = (.ok a, t')) :
    Kept (log ++ [.answered ⟨r, a⟩]) t' := by
  have hinverse := h.inverse.ask r
  have hsize := size_ask_le h.size_le r
  rw [hr] at hinverse hsize
  refine ⟨hinverse, hsize, fun hfew => ?_⟩
  obtain ⟨calls, rfl, hlogged⟩ := h.logged (wanted_length_le hfew)
  rcases h.inverse.ask_cases r with ⟨hanswer, htable⟩ | ⟨s, -, -, -, hrefused, -⟩
  · rw [hr] at hanswer htable
    cases hanswer
    have htable : t'.table = (r.ask t.table).2 := htable
    refine ⟨calls ++ [⟨r, (r.ask t.table).1⟩], by simp, ?_⟩
    rw [htable]
    exact hlogged.ask r
  · rw [hr] at hrefused
    cases hrefused

theorem refuse (h : Kept log t) {r : Request} {e : TableFull} (hr : t.ask r = (.error e, t')) :
    Kept (log ++ [.refused r]) t' := by
  rcases h.inverse.ask_cases r with ⟨hanswer, -⟩ | ⟨s, rfl, hs, hfull, -, hsame⟩
  · rw [hr] at hanswer
    cases hanswer
  · rw [hr] at hsame
    have hsame : t = t' := hsame.symm
    subst hsame
    refine ⟨h.inverse, h.size_le, fun hfew => ?_⟩
    obtain ⟨calls, rfl, hlogged⟩ := h.logged (wanted_length_le hfew)
    have hnew : s ∉ firstUses calls := by
      rw [← hlogged.names, ← SymbolTable.find?_eq_none_iff, h.inverse.find?_table]
      exact hs
    have hwanted : wanted (calls.map .answered ++ [.refused (.intern s)]) = firstUses calls ++ [s] := by
      rw [← if_neg (t := firstUses calls) (e := firstUses calls ++ [s]) hnew,
        ← SymbolTable.firstUses_append_issue calls s 0, ← wanted_answered]
      simp [wanted, Reply.request]
    have hsize : (firstUses calls).length = t.size := by
      rw [← hlogged.names]
      exact Array.length_toList
    rw [hwanted, List.length_append, hsize, List.length_singleton] at hfew
    omega

/-- A whole batch, request by request. -/
theorem run (h : Kept log t) (b : Batch) :
    Kept (log ++ (Interner.run b t).1) (Interner.run b t).2 := by
  induction b generalizing log t with
  | done => rwa [Interner.run, List.append_nil]
  | ask r next ih =>
    rw [Interner.run]
    cases hr : t.ask r with
    | mk o t' =>
      cases o with
      | ok a =>
        have hrest := ih a (h.answer hr)
        rwa [List.append_assoc] at hrest
      | error e => exact h.refuse hr

end Kept

end Interner

/-! ## Any number of handles -/

namespace SharedInterners

open Interner (Reply Kept wanted)
open SymbolTable (Batch Call firstUses issue)

/-- The tables and handles that there can be, with the log of each table. A table is shared when it
is new or after any calls by its only owner, and these calls open its log. -/
inductive Reachable : SharedInterners → List (List Reply) → Prop
  | start : Reachable {} []
  | share {s : SharedInterners} {logs : List (List Reply)} (owner : Batch) (h : Reachable s logs) :
    Reachable (s.share (Interner.run owner {}).2).2 (logs ++ [(Interner.run owner {}).1])
  | clone {s s' : SharedInterners} {logs : List (List Reply)} (handle : Nat) {handle' : Nat}
    (h : Reachable s logs) (hc : s.clone? handle = some (handle', s')) : Reachable s' logs
  | call {s s' : SharedInterners} {logs : List (List Reply)} (handle : Nat) {i : Nat}
    {replies : List Reply} (b : Batch) (h : Reachable s logs) (hi : s.handles[handle]? = some i)
    (hc : s.update? handle (Interner.run b) = some (replies, s')) :
    Reachable s' (logs.modify i (· ++ replies))

/-- Every table has its log, and every handle its table. -/
structure Consistent (s : SharedInterners) (logs : List (List Reply)) : Prop where
  length_eq : logs.length = s.tables.size
  kept : ∀ (i : Nat) (log : List Reply) (t : Interner),
    logs[i]? = some log → s.tables[i]? = some t → Kept log t
  bounded : ∀ (handle i : Nat), s.handles[handle]? = some i → i < s.tables.size

namespace Consistent

variable {s s' : SharedInterners} {logs : List (List Reply)}

theorem start : Consistent {} [] := ⟨rfl, by simp, by simp⟩

theorem share (h : Consistent s logs) {log : List Reply} {t : Interner} (ht : Kept log t) :
    Consistent (s.share t).2 (logs ++ [log]) where
  length_eq := by simp [Shared.share, h.length_eq]
  kept i log' t' hlog htable := by
    rw [Shared.share, Array.getElem?_push] at htable
    split at htable
    · next hi =>
      subst hi
      rw [← h.length_eq, List.getElem?_concat_length] at hlog
      cases hlog
      cases htable
      exact ht
    · next hi =>
      have hlt : i < logs.length := by
        have := (Array.getElem?_eq_some_iff.mp htable).1
        rwa [h.length_eq]
      rw [List.getElem?_append_left hlt] at hlog
      exact h.kept i log' t' hlog htable
  bounded handle i hi := by
    have hsize : (s.share t).2.tables.size = s.tables.size + 1 := Array.size_push ..
    rw [Shared.share, Array.getElem?_push] at hi
    split at hi
    · cases hi
      omega
    · have := h.bounded handle i hi
      omega

theorem clone (h : Consistent s logs) {handle handle' : Nat}
    (hc : s.clone? handle = some (handle', s')) : Consistent s' logs := by
  rw [Shared.clone?, Option.map_eq_some_iff] at hc
  obtain ⟨i, hi, hc⟩ := hc
  cases hc
  refine ⟨h.length_eq, h.kept, fun k j hj => ?_⟩
  rw [Array.getElem?_push] at hj
  split at hj
  · cases hj
    exact h.bounded handle i hi
  · exact h.bounded k j hj

/-- The table behind the handle and its log are the only ones that change. -/
theorem call (h : Consistent s logs) {handle i : Nat} {replies : List Reply} {b : Batch}
    (hi : s.handles[handle]? = some i)
    (hc : s.update? handle (Interner.run b) = some (replies, s')) :
    Consistent s' (logs.modify i (· ++ replies)) := by
  obtain ⟨t, ht⟩ : ∃ t, s.tables[i]? = some t :=
    ⟨_, Array.getElem?_eq_some_iff.mpr ⟨h.bounded handle i hi, rfl⟩⟩
  have hs' : replies = (Interner.run b t).1 ∧
      s' = { s with tables := s.tables.setIfInBounds i (Interner.run b t).2 } := by
    simpa [Shared.update?, hi, ht, eq_comm] using hc
  obtain ⟨rfl, rfl⟩ := hs'
  refine ⟨by simp [h.length_eq], fun j log t' hlog htable => ?_, fun k j hj => ?_⟩
  · rw [List.getElem?_modify, Option.map_eq_map, Option.map_eq_some_iff] at hlog
    obtain ⟨log', hlog', hlog⟩ := hlog
    rw [Array.getElem?_setIfInBounds] at htable
    by_cases hij : i = j
    · subst hij
      have hkept := h.kept i log' t hlog' ht
      rw [if_pos rfl] at hlog
      rw [if_pos rfl, if_pos (h.bounded handle i hi), Option.some_inj] at htable
      subst hlog htable
      exact hkept.run b
    · rw [if_neg hij] at hlog htable
      subst hlog
      exact h.kept j log' t' hlog' htable
  · simpa using h.bounded k j hj

end Consistent

/-- Whatever was shared, cloned and called, and in whatever order. -/
theorem Reachable.consistent {s : SharedInterners} {logs : List (List Reply)}
    (h : Reachable s logs) : Consistent s logs := by
  induction h with
  | start => exact .start
  | share owner _ ih => exact ih.share (Kept.start.run owner)
  | clone _ _ hc ih => exact ih.clone hc
  | call _ b _ hi hc ih => exact ih.call hi hc

/-- All handles of a table see it as the calls through any of them left it, and its vector and hash
map undo each other. With at most `wordLimit` different spellings asked for, nothing was refused;
its spellings are those that were interned, in the order of first use; ids are equal exactly when
spellings are; the ids issued are those below the size, and each fits in a word; and every call was
answered as the calls before it demand. -/
theorem interning_is_consistent {s : SharedInterners} {logs : List (List Reply)}
    (h : Reachable s logs) {handle i : Nat} (hi : s.handles[handle]? = some i) :
    ∃ (t : Interner) (log : List Reply), logs[i]? = some log ∧
      (∀ handle', s.handles[handle']? = some i → s.table? handle' = some t) ∧
      (∀ (a : String) (id : SymbolId), t.lookup[a]? = some id ↔ t.strings[id]? = some a) ∧
      ((wanted log).length ≤ wordLimit → ∃ calls : List Call, log = calls.map .answered ∧
        t.strings.toList = firstUses calls ∧
        (∀ a id b id', issue a id ∈ calls → issue b id' ∈ calls → (id = id' ↔ a = b)) ∧
        (∀ id, id < t.size ↔ ∃ a, issue a id ∈ calls) ∧
        (∀ a id, issue a id ∈ calls → id < wordLimit) ∧
        ∀ (n : Nat) (c : Call), calls[n]? = some c → c.Right (calls.take n)) := by
  have hlt : i < s.tables.size := h.consistent.bounded handle i hi
  obtain ⟨t, ht⟩ : ∃ t, s.tables[i]? = some t := ⟨_, Array.getElem?_eq_some_iff.mpr ⟨hlt, rfl⟩⟩
  obtain ⟨log, hlog⟩ : ∃ log, logs[i]? = some log := by
    rw [← h.consistent.length_eq] at hlt
    exact ⟨_, List.getElem?_eq_some_iff.mpr ⟨hlt, rfl⟩⟩
  have hkept : Kept log t := h.consistent.kept i log t hlog ht
  refine ⟨t, log, hlog, fun k hk => ?_, hkept.inverse, fun hfew => ?_⟩
  · rw [Shared.table?, hk, Option.bind_some, ht]
  · obtain ⟨calls, rfl, hlogged⟩ := hkept.logged hfew
    refine ⟨calls, rfl, hlogged.names, fun a id b id' ha hb => hlogged.issue_inj ha hb,
      hlogged.lt_size_iff, fun a id ha => ?_, hlogged.right⟩
    have hid : id < t.size := (hlogged.lt_size_iff id).mpr ⟨a, ha⟩
    exact Nat.lt_of_lt_of_le hid hkept.size_le

/-! ## One table behind two handles -/

/-- Its owner interned `b`. -/
def ownedInterner : Interner := ⟨#["b"], ({} : Std.HashMap String SymbolId).insert "b" 0⟩

/-- Later `a` was interned. -/
def pairedInterner : Interner := ⟨#["b", "a"], ownedInterner.lookup.insert "a" 1⟩

/-- `a` was asked for through the first handle before it was interned through the second. -/
def pairedCalls : List Call :=
  [issue "b" 0, ⟨.find "a", none⟩, ⟨.name 1, none⟩, issue "a" 1, ⟨.resolve 1, .ok "a"⟩, issue "a" 1]

theorem pairedInterner_reachable :
    Reachable ⟨#[pairedInterner], #[0, 0]⟩ [pairedCalls.map .answered] := by
  have hb : Interner.intern {} "b" = (.ok 0, ownedInterner) :=
    Interner.intern_of_room (by simp [Interner.find?]) (by decide)
  have hfind : ownedInterner.find? "a" = none := by
    simp [Interner.find?, ownedInterner]
  have hname : ownedInterner.name? 1 = none := rfl
  have ha : ownedInterner.intern "a" = (.ok 1, pairedInterner) :=
    Interner.intern_of_room hfind (by decide)
  have hresolve : pairedInterner.resolve 1 = .ok "a" := rfl
  have hagain : pairedInterner.intern "a" = (.ok 1, pairedInterner) :=
    Interner.intern_of_find? (by simp [Interner.find?, pairedInterner])
  have hshared : Reachable ⟨#[ownedInterner], #[0]⟩ [[.answered (issue "b" 0)]] := by
    simpa [Interner.run, Interner.ask, hb, Shared.share] using
      Reachable.start.share (.ask (.intern "b") fun _ => .done)
  have hcloned : Reachable ⟨#[ownedInterner], #[0, 0]⟩ [[.answered (issue "b" 0)]] :=
    hshared.clone 0 rfl
  have hasked := hcloned.call 0 (.ask (.find "a") fun _ => .ask (.name 1) fun _ => .done) rfl
    (by simp [Shared.update?, Interner.run, Interner.ask, hfind, hname]; exact ⟨rfl, rfl⟩)
  have hissued := hasked.call 1 (.ask (.intern "a") fun id => .ask (.resolve id) fun _ => .done) rfl
    (by simp [Shared.update?, Interner.run, Interner.ask, ha, hresolve]; exact ⟨rfl, rfl⟩)
  exact hissued.call 0 (.ask (.intern "a") fun _ => .done) rfl
    (by simp [Shared.update?, Interner.run, Interner.ask, hagain])

/-- Both handles see the table, and all six calls were answered right. -/
theorem interning_is_consistent_paired :
    Reachable ⟨#[pairedInterner], #[0, 0]⟩ [pairedCalls.map .answered] ∧
      ∃ t : Interner, (⟨#[pairedInterner], #[0, 0]⟩ : SharedInterners).table? 1 = some t ∧
        t.strings.toList = ["b", "a"] ∧ t.lookup["a"]? = some 1 ∧
        ∀ (n : Nat) (c : Call), pairedCalls[n]? = some c → c.Right (pairedCalls.take n) := by
  have hr := pairedInterner_reachable
  obtain ⟨t, log, hlog, htable, hinverse, hfew⟩ := @interning_is_consistent _ _ hr 1 0 rfl
  cases hlog
  have huses : firstUses pairedCalls = ["b", "a"] := by decide +kernel
  obtain ⟨calls, heq, hstrings, -, -, -, hright⟩ := hfew (by
    rw [Interner.wanted_answered, huses]
    decide)
  have hcalls : pairedCalls = calls :=
    List.map_injective_iff.mpr (fun _ _ h => Reply.answered.inj h) heq
  subst hcalls
  have hstrings : t.strings.toList = ["b", "a"] := hstrings.trans huses
  refine ⟨hr, t, htable 1 rfl, hstrings, (hinverse _ _).mpr ?_, hright⟩
  rw [← Array.getElem?_toList, hstrings]
  rfl

end SharedInterners

end ClosureMachine
