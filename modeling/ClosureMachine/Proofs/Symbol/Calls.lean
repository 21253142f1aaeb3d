import ClosureMachine.Proofs.Meaning.Names
import Mathlib.Data.List.Nodup

/-!
Calls on a symbol table. A batch of calls is answered call by call, and each request may depend on
the answers before it. Next to the table there is a log of its calls (`Logged`): every answer in it
is the one that the calls before it demand (`Call.Right`), and the table lists what was interned, in
the order of first use.
-/

namespace ClosureMachine

namespace SymbolTable

/-! ## One call -/

/-- No spelling is listed twice. -/
def Distinct (t : SymbolTable) : Prop := t.names.toList.Nodup

theorem find?_eq_none_iff (t : SymbolTable) (s : String) :
    t.find? s = none ↔ s ∉ t.names.toList := by
  rw [find?_eq, List.idxOf?_eq_none_iff]

theorem name?_eq_some_iff {t : SymbolTable} (h : t.Distinct) (id : SymbolId) (s : String) :
    t.name? id = some s ↔ t.find? s = some id := by
  rw [find?_eq, List.idxOf?_eq_some_iff, name?, ← Array.getElem?_toList,
    List.getElem?_eq_some_iff]
  constructor
  · rintro ⟨hlt, hs⟩
    refine ⟨hlt, hs, fun j hj hjs => ?_⟩
    have hsame := (h.getElem_inj_iff).mp (hjs.trans hs.symm)
    omega
  · rintro ⟨hlt, hs, -⟩
    exact ⟨hlt, hs⟩

theorem names_intern (t : SymbolTable) (s : String) :
    (t.intern s).2.names.toList =
      if s ∈ t.names.toList then t.names.toList else t.names.toList ++ [s] := by
  cases h : t.find? s with
  | some id => rw [intern_of_find? h, if_pos (mem_of_find? h)]
  | none =>
    rw [intern_of_not_found h, if_neg ((find?_eq_none_iff t s).mp h)]
    exact Array.toList_push

theorem Distinct.intern {t : SymbolTable} (h : t.Distinct) (s : String) :
    (t.intern s).2.Distinct := by
  rw [Distinct, names_intern]
  split
  · exact h
  · next hs => exact List.nodup_append.mpr ⟨h, by simp, by rintro a ha b hb rfl; simp_all⟩

/-- Interning gives one spelling an id and leaves all others what they were. -/
theorem find?_intern_iff (t : SymbolTable) (s s' : String) (id : SymbolId) :
    (t.intern s).2.find? s' = some id ↔
      t.find? s' = some id ∨ s' = s ∧ id = (t.intern s).1 := by
  constructor
  · intro h
    by_cases hs : s' = s
    · subst hs
      rw [find?_intern] at h
      exact .inr ⟨rfl, (Option.some.inj h).symm⟩
    · left
      cases hf : t.find? s' with
      | some id' => exact ((grows_intern t s).find? hf).symm.trans h
      | none =>
        have hmem := mem_of_find? h
        rw [names_intern] at hmem
        have hno := (find?_eq_none_iff t s').mp hf
        split at hmem
        · exact absurd hmem hno
        · simp_all
  · rintro (h | ⟨rfl, rfl⟩)
    · exact (grows_intern t s).find? h
    · exact find?_intern t s'

/-! ## Calls and batches -/

/-- What can be asked of a table. -/
inductive Request where
  | intern (s : String)
  | find (s : String)
  | resolve (id : SymbolId)
  | name (id : SymbolId)
  | size
  | isEmpty
  | list

namespace Request

abbrev Answer : Request → Type
  | .intern _ => SymbolId
  | .find _ => Option SymbolId
  | .resolve _ => Except UnknownSymbol String
  | .name _ => Option String
  | .size => Nat
  | .isEmpty => Bool
  | .list => List (SymbolId × String)

def ask (t : SymbolTable) : (r : Request) → r.Answer × SymbolTable
  | .intern s => t.intern s
  | .find s => (t.find? s, t)
  | .resolve id => (t.resolve id, t)
  | .name id => (t.name? id, t)
  | .size => (t.size, t)
  | .isEmpty => (t.isEmpty, t)
  | .list => (t.toList, t)

end Request

/-- A request with the answer that it got. -/
structure Call where
  request : Request
  answer : request.Answer

/-- Calls made in one go; the next request may depend on the answers so far. -/
inductive Batch where
  | done
  | ask (r : Request) (next : r.Answer → Batch)

/-- The calls of a batch, in order, and the table after them. -/
def Batch.run : Batch → SymbolTable → List Call × SymbolTable
  | .done, t => ([], t)
  | .ask r next, t =>
    let (answer, t) := r.ask t
    let (calls, t) := (next answer).run t
    (⟨r, answer⟩ :: calls, t)

/-- The spellings interned in a log, repetitions included. -/
def interned (log : List Call) : List String :=
  log.filterMap fun c => match c.request with
    | .intern s => some s
    | _ => none

/-- The spellings interned in a log, each where it was first met. -/
def firstUses (log : List Call) : List String := (interned log).eraseDups

/-- The interning of `s` with the answer `id`. -/
abbrev issue (s : String) (id : SymbolId) : Call := ⟨.intern s, id⟩

/-- The answer that the calls before it demand. -/
def Call.Right (before : List Call) : Call → Prop
  | ⟨.intern s, id⟩ => (firstUses (before ++ [issue s id]))[id]? = some s
  | ⟨.find s, found⟩ => ∀ id, found = some id ↔ issue s id ∈ before
  | ⟨.resolve id, text⟩ =>
    (∀ s, text = .ok s ↔ issue s id ∈ before) ∧
      (text = .error ⟨id⟩ ↔ ∀ s, issue s id ∉ before)
  | ⟨.name id, text⟩ => ∀ s, text = some s ↔ issue s id ∈ before
  | ⟨.size, n⟩ => n = (firstUses before).length
  | ⟨.isEmpty, b⟩ => b = true ↔ interned before = []
  | ⟨.list, entries⟩ => entries = (firstUses before).zipIdx.map fun (s, id) => (id, s)

/-! ## What the calls on one table leave behind -/

theorem interned_append (log log' : List Call) :
    interned (log ++ log') = interned log ++ interned log' := List.filterMap_append

theorem firstUses_append_issue (log : List Call) (s : String) (id : SymbolId) :
    firstUses (log ++ [issue s id]) =
      if s ∈ firstUses log then firstUses log else firstUses log ++ [s] := by
  have hone : interned [issue s id] = [s] := rfl
  rw [firstUses, interned_append, hone, List.eraseDups_append, firstUses]
  by_cases hs : s ∈ interned log
  · simp [List.removeAll, List.mem_eraseDups, hs]
  · simp [List.removeAll, List.mem_eraseDups, List.eraseDups_cons, hs]

/-- The table holds what the log says, and the log has only right answers. -/
structure Logged (log : List Call) (t : SymbolTable) : Prop where
  distinct : t.Distinct
  names : t.names.toList = firstUses log
  find?_iff : ∀ s id, t.find? s = some id ↔ issue s id ∈ log
  right : ∀ (n : Nat) (c : Call), log[n]? = some c → c.Right (log.take n)

namespace Logged

variable {log : List Call} {t : SymbolTable}

theorem start : Logged [] {} where
  distinct := List.nodup_nil
  names := rfl
  find?_iff s id := by simp [SymbolTable.find?_eq]
  right n c h := by simp at h

/-- A further call that was answered right keeps the earlier answers right. -/
theorem right_append (h : Logged log t) {c : Call} (hc : c.Right log) (n : Nat) (c' : Call)
    (hn : (log ++ [c])[n]? = some c') : c'.Right ((log ++ [c]).take n) := by
  rw [List.getElem?_append] at hn
  split at hn
  · next hlt =>
    rw [List.take_append_of_le_length (Nat.le_of_lt hlt)]
    exact h.right n c' hn
  · next hlt =>
    rw [List.getElem?_singleton] at hn
    split at hn
    · next hzero =>
      cases hn
      have hlen : n = log.length := by omega
      subst hlen
      rwa [List.take_left]
    · cases hn

theorem name?_iff (h : Logged log t) (id : SymbolId) (s : String) :
    t.name? id = some s ↔ issue s id ∈ log :=
  (SymbolTable.name?_eq_some_iff h.distinct id s).trans (h.find?_iff s id)

theorem resolve_iff (h : Logged log t) (id : SymbolId) (s : String) :
    t.resolve id = .ok s ↔ issue s id ∈ log := by
  rw [← h.name?_iff, SymbolTable.resolve]
  cases t.name? id <;> simp

theorem resolve_error_iff (h : Logged log t) (id : SymbolId) :
    t.resolve id = .error ⟨id⟩ ↔ ∀ s, issue s id ∉ log := by
  simp only [← h.name?_iff, SymbolTable.resolve]
  cases t.name? id <;> simp

theorem isEmpty_iff (h : Logged log t) : t.isEmpty = true ↔ interned log = [] := by
  have hnil : firstUses log = [] ↔ interned log = [] := by
    simp only [List.eq_nil_iff_forall_not_mem, firstUses, List.mem_eraseDups]
  rw [← hnil, ← h.names, SymbolTable.isEmpty, Array.isEmpty_iff, Array.toList_eq_nil_iff]

/-- A request that is not an interning leaves the table, and what the log says of it. -/
theorem read (h : Logged log t) {c : Call} (hc : c.Right log) (hno : ∀ s, c.request ≠ .intern s) :
    Logged (log ++ [c]) t := by
  obtain ⟨r, answer⟩ := c
  have hnone : interned [⟨r, answer⟩] = [] := by
    cases r with
    | intern s => exact absurd rfl (hno s)
    | _ => rfl
  refine ⟨h.distinct, ?_, fun s id => ?_, h.right_append hc⟩
  · rw [h.names, firstUses, firstUses, interned_append, hnone, List.append_nil]
  · rw [h.find?_iff, List.mem_append, List.mem_singleton]
    refine ⟨.inl, fun hmem => hmem.resolve_right fun heq => ?_⟩
    exact hno s (congrArg Call.request heq).symm

/-- The id of a spelling is its place among the first uses, be it new or not. -/
theorem issue_right (h : Logged log t) (s : String) : (issue s (t.intern s).1).Right log := by
  have hname : (t.intern s).2.name? (t.intern s).1 = some s :=
    (SymbolTable.name?_eq_some_iff (h.distinct.intern s) _ s).mpr (t.find?_intern s)
  rw [SymbolTable.name?, ← Array.getElem?_toList, SymbolTable.names_intern, h.names,
    ← firstUses_append_issue log s (t.intern s).1] at hname
  exact hname

theorem intern (h : Logged log t) (s : String) :
    Logged (log ++ [issue s (t.intern s).1]) (t.intern s).2 where
  distinct := h.distinct.intern s
  names := by rw [SymbolTable.names_intern, h.names, firstUses_append_issue]
  find?_iff s' id := by
    rw [SymbolTable.find?_intern_iff, h.find?_iff, List.mem_append, List.mem_singleton]
    refine or_congr_right ⟨?_, fun heq => ?_⟩
    · rintro ⟨rfl, rfl⟩
      rfl
    · cases heq
      exact ⟨rfl, rfl⟩
  right := h.right_append (h.issue_right s)

/-- One call. -/
theorem ask (h : Logged log t) (r : Request) :
    Logged (log ++ [⟨r, (r.ask t).1⟩]) (r.ask t).2 := by
  cases r with
  | intern s => exact h.intern s
  | find s => exact h.read (fun id => h.find?_iff s id) nofun
  | resolve id => exact h.read ⟨h.resolve_iff id, h.resolve_error_iff id⟩ nofun
  | name id => exact h.read (h.name?_iff id) nofun
  | size => exact h.read (congrArg List.length h.names) nofun
  | isEmpty => exact h.read h.isEmpty_iff nofun
  | list =>
    have hlist : t.toList = (firstUses log).zipIdx.map fun (s, id) => (id, s) := by
      rw [SymbolTable.toList, h.names]
    exact h.read hlist nofun

/-- A whole batch, by its calls one after the other. -/
theorem run (h : Logged log t) (b : Batch) : Logged (log ++ (b.run t).1) (b.run t).2 := by
  induction b generalizing log t with
  | done => rwa [Batch.run, List.append_nil]
  | ask r next ih =>
    have hrest := ih (r.ask t).1 (h.ask r)
    rwa [List.append_assoc] at hrest

theorem lt_size_iff (h : Logged log t) (id : SymbolId) :
    id < t.size ↔ ∃ s, issue s id ∈ log := by
  simp only [← h.name?_iff, SymbolTable.name?, SymbolTable.size, Array.getElem?_eq_some_iff]
  constructor
  · intro hlt
    exact ⟨t.names[id], hlt, rfl⟩
  · rintro ⟨_, hlt, -⟩
    exact hlt

theorem issue_inj (h : Logged log t) {s s' : String} {id id' : SymbolId} (hs : issue s id ∈ log)
    (hs' : issue s' id' ∈ log) : id = id' ↔ s = s' := by
  rw [← h.find?_iff] at hs hs'
  constructor
  · rintro rfl
    exact SymbolTable.find?_inj hs hs'
  · rintro rfl
    exact Option.some.inj (hs.symm.trans hs')

end Logged

end SymbolTable

end ClosureMachine
