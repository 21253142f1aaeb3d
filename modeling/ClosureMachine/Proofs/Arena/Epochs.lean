import Mathlib.Data.List.Nodup
import Mathlib.Logic.Relation
import ClosureMachine.Proofs.Arena.Ledger

/-!
Many arenas and one counter of generations. A realm is all the arenas of a process, in the order of
their creation, each with its ledger and the number of its resets, next to the counter and a list
of the numbers it gave out. Arenas are created, used and reset in any order.

The numbers given out are always `k, …, 2, 1` (`Numbered`), so none is used twice; hence arenas
have different generations, and a generation that was left never comes back (`Kept`). The main
statement is `handles_stay_with_their_epoch`.
-/

namespace ClosureMachine

/-- The handles an arena issued in this generation, newest first. -/
def Ledger.handles {β : Type} (l : Ledger β) : List (Handle β) := l.entries.map (·.handle)

/-- Everything but an empty slice, which is accepted everywhere. -/
def Handle.NonEmpty {β : Type} : Handle β → Prop
  | slice _ s => s.length ≠ 0
  | _ => True

/-- The arena takes the handle for one of its own: it gives the address of a run, the value of a
reference or the values of a slice. -/
def Handle.AcceptedBy {β : Type} (a : Arena β) : Handle β → Prop
  | run addr _ => a.isLive addr 0 = true
  | value _ r => (a.get? r).isSome = true
  | slice _ s => (a.slice? s).isSome = true

/-- An arena with its ledger, and how often it was reset. -/
structure Tenant (β : Type) where
  ledger : Ledger β
  resets : Nat := 0

abbrev Tenant.arena {β : Type} (t : Tenant β) : Arena β := t.ledger.arena

/-- All arenas, the counter, and the numbers it gave out, newest first. -/
structure Realm (β : Type) where
  tenants : List (Tenant β) := []
  gens : Generations := {}
  issued : List Nat := []

namespace Realm

variable {β : Type}

/-- Create an arena of `n` blocks. -/
def create (w : Realm β) (n : Nat) : Realm β :=
  match Arena.create n w.gens with
  | .ok (a, gens) =>
    { tenants := w.tenants ++ [{ ledger := ⟨a, []⟩ }], gens, issued := a.generation :: w.issued }
  | .error _ => w

/-- Reset an arena. -/
def reset (w : Realm β) (i : Nat) : Realm β :=
  match w.tenants[i]? with
  | none => w
  | some t =>
    match t.arena.reset w.gens with
    | .ok (a, gens) =>
      { tenants := w.tenants.set i ⟨⟨a, []⟩, t.resets + 1⟩, gens,
        issued := a.generation :: w.issued }
    | .error _ => w

/-- One operation on one of the arenas, or a new arena. -/
inductive Move [Inhabited β] : Realm β → Realm β → Prop
  | create (w : Realm β) (n : Nat) : Move w (w.create n)
  | operate (w : Realm β) {i : Nat} {t : Tenant β} {l : Ledger β} :
    w.tenants[i]? = some t → t.ledger.Move l →
      Move w { w with tenants := w.tenants.set i { t with ledger := l } }
  | reset (w : Realm β) (i : Nat) : Move w (w.reset i)

abbrev Later [Inhabited β] : Realm β → Realm β → Prop := Relation.ReflTransGen Move

/-- The realms that come about from the empty one. -/
def Reachable [Inhabited β] (w : Realm β) : Prop := Later {} w

/-! ## The numbers given out -/

/-- The numbers given out are those from one to `k`. -/
def Numbered (w : Realm β) (k : Nat) : Prop :=
  k < wordLimit ∧ w.gens.next = (k + 1) % wordLimit ∧ w.issued = (List.range' 1 k).reverse

theorem Numbered.mem_iff {w : Realm β} {k g : Nat} (h : w.Numbered k) :
    g ∈ w.issued ↔ 1 ≤ g ∧ g ≤ k := by
  rw [h.2.2, List.mem_reverse, List.mem_range'_1]
  omega

theorem Numbered.nodup {w : Realm β} {k : Nat} (h : w.Numbered k) : w.issued.Nodup := by
  rw [h.2.2, List.nodup_reverse]
  exact List.nodup_range'

/-- The next number is the first that was not given out, unless a word cannot hold it. -/
theorem Numbered.issue? {w : Realm β} {k : Nat} (h : w.Numbered k) :
    w.gens.issue? =
      if k + 1 < wordLimit then some (k + 1, ⟨(k + 2) % wordLimit⟩) else none := by
  obtain ⟨hk, hnext, -⟩ := h
  rw [Generations.issue?, hnext]
  by_cases hlt : k + 1 < wordLimit
  · rw [if_pos hlt, Nat.mod_eq_of_lt hlt, if_neg (Nat.succ_ne_zero k)]
  · have hspent : k + 1 = wordLimit := by omega
    rw [if_neg hlt, hspent, Nat.mod_self, if_pos rfl]

theorem create_cases (w : Realm β) (n : Nat) :
    w.create n = w ∨ ∃ g gens, w.gens.issue? = some (g, gens) ∧ ∃ a : Arena β,
      a.generation = g ∧ Ledger.Sound ⟨a, []⟩ ∧
      w.create n = ⟨w.tenants ++ [{ ledger := ⟨a, []⟩ }], gens, g :: w.issued⟩ := by
  rw [create]
  split
  · next a gens hc =>
    obtain ⟨hn, g, hg, rfl⟩ := Arena.create_eq_ok hc
    exact .inr ⟨g, gens, hg, _, rfl, Ledger.sound_of_empty rfl hn, rfl⟩
  · exact .inl rfl

theorem reset_cases (w : Realm β) (i : Nat) :
    w.reset i = w ∨ ∃ g gens, w.gens.issue? = some (g, gens) ∧ ∃ (t : Tenant β) (a : Arena β),
      w.tenants[i]? = some t ∧ t.arena.reset w.gens = .ok (a, gens) ∧ a.generation = g ∧
      w.reset i = ⟨w.tenants.set i ⟨⟨a, []⟩, t.resets + 1⟩, gens, g :: w.issued⟩ := by
  rw [reset]
  split
  · exact .inl rfl
  · next t ht =>
    split
    · next a gens hr =>
      obtain ⟨g, hg, rfl⟩ := Arena.reset_eq_ok hr
      exact .inr ⟨g, gens, hg, t, _, ht, hr, rfl, rfl⟩
    · exact .inl rfl

/-- Giving out the next number keeps the count. -/
theorem Numbered.next {w : Realm β} {k g : Nat} {gens : Generations} (h : w.Numbered k)
    (hg : w.gens.issue? = some (g, gens)) (ts : List (Tenant β)) :
    g = k + 1 ∧ Numbered ⟨ts, gens, g :: w.issued⟩ (k + 1) := by
  rw [h.issue?] at hg
  split at hg
  · next hlt =>
    cases hg
    refine ⟨rfl, hlt, rfl, ?_⟩
    rw [h.2.2, List.range'_concat]
    simp [Nat.add_comm]
  · cases hg

/-! ## The invariant -/

def generations (w : Realm β) : List Nat := w.tenants.map (·.arena.generation)

structure Sound (w : Realm β) (k : Nat) : Prop where
  numbered : w.Numbered k
  ledger : ∀ t ∈ w.tenants, t.ledger.Sound
  /-- Generations in use were given out. -/
  known : ∀ g ∈ w.generations, g ∈ w.issued
  /-- Different arenas are of different generations. -/
  apart : w.generations.Nodup

theorem getElem?_generations {w : Realm β} {i : Nat} {t : Tenant β}
    (ht : w.tenants[i]? = some t) : w.generations[i]? = some t.arena.generation := by
  rw [generations, List.getElem?_map, ht, Option.map_some]

theorem Sound.known_of_tenant {w : Realm β} {k i : Nat} {t : Tenant β} (h : w.Sound k)
    (ht : w.tenants[i]? = some t) : t.arena.generation ∈ w.issued :=
  h.known _ (List.mem_of_getElem? (getElem?_generations ht))

theorem Sound.unique {w : Realm β} {k i j : Nat} {t t' : Tenant β} (h : w.Sound k)
    (ht : w.tenants[i]? = some t) (ht' : w.tenants[j]? = some t')
    (hg : t'.arena.generation = t.arena.generation) : j = i := by
  have hj : j < w.generations.length :=
    (List.getElem?_eq_some_iff.mp (getElem?_generations ht')).1
  apply (List.getElem?_inj hj h.apart).mp
  rw [getElem?_generations ht, getElem?_generations ht', hg]

theorem Sound.not_issued {w : Realm β} {k g : Nat} {gens : Generations} (h : w.Sound k)
    (hg : w.gens.issue? = some (g, gens)) : g ∉ w.issued := by
  obtain ⟨rfl, -⟩ := h.numbered.next hg []
  intro hmem
  exact Nat.not_succ_le_self k (h.numbered.mem_iff.mp hmem).2

/-- A new generation is known and different from all others. -/
theorem Sound.fresh {w : Realm β} {k g : Nat} {gens : Generations} {ts : List (Tenant β)}
    (h : w.Sound k) (hg : w.gens.issue? = some (g, gens))
    (hl : ∀ t ∈ ts, t.ledger.Sound)
    (hts : Realm.generations ⟨ts, gens, g :: w.issued⟩ = w.generations ++ [g] ∨
      ∃ i, Realm.generations ⟨ts, gens, g :: w.issued⟩ = w.generations.set i g) :
    Sound ⟨ts, gens, g :: w.issued⟩ (k + 1) := by
  obtain ⟨hk, hn⟩ := h.numbered.next hg ts
  have hnew : g ∉ w.generations := fun hmem => h.not_issued hg (h.known g hmem)
  refine ⟨hn, hl, ?_, ?_⟩
  · intro g' hg'
    rw [List.mem_cons]
    rcases hts with hts | ⟨i, hts⟩
    · rw [hts, List.mem_append, List.mem_singleton] at hg'
      exact hg'.symm.imp id (h.known g')
    · rw [hts] at hg'
      exact (List.mem_or_eq_of_mem_set hg').symm.imp id (h.known g')
  · rcases hts with hts | ⟨i, hts⟩
    · rw [hts]
      exact h.apart.append (List.nodup_singleton _) (by simpa using hnew)
    · rw [hts]
      exact h.apart.set hnew

/-- Behind the largest word the counter gives out nothing. -/
theorem Sound.spent {w : Realm β} {k : Nat} (h : w.Sound k) (hmax : wordLimit - 1 ∈ w.issued) :
    w.gens.issue? = none := by
  have hle := (h.numbered.mem_iff.mp hmax).2
  rw [h.numbered.issue?, if_neg (by omega)]

theorem Sound.create {w : Realm β} {k : Nat} (h : w.Sound k) (n : Nat) :
    ∃ k', (w.create n).Sound k' := by
  rcases w.create_cases n with hw | ⟨g, gens, hg, a, rfl, ha, hw⟩
  · exact ⟨k, hw.symm ▸ h⟩
  · rw [hw]
    refine ⟨k + 1, h.fresh hg ?_ (.inl (by simp [generations]))⟩
    intro t ht
    rcases List.mem_append.mp ht with ht | ht
    · exact h.ledger t ht
    · rw [List.mem_singleton.mp ht]
      exact ha

theorem Sound.reset {w : Realm β} {k : Nat} (h : w.Sound k) (i : Nat) :
    ∃ k', (w.reset i).Sound k' := by
  rcases w.reset_cases i with hw | ⟨g, gens, hg, t, a, ht, ha, rfl, hw⟩
  · exact ⟨k, hw.symm ▸ h⟩
  · rw [hw]
    refine ⟨k + 1, h.fresh hg ?_ (.inr ⟨i, by simp [generations, List.map_set]⟩)⟩
    intro t' ht'
    rcases List.mem_or_eq_of_mem_set ht' with ht' | rfl
    · exact h.ledger t' ht'
    · obtain ⟨g, -, rfl⟩ := Arena.reset_eq_ok ha
      exact Ledger.sound_of_empty rfl (h.ledger t (List.mem_of_getElem? ht)).capacity_lt

end Realm

namespace Arena

variable {β α : Type} [Storable β α]

theorem generation_set (a : Arena β) (r : Ref α) (x : α) :
    (a.set r x).2.generation = a.generation := by
  rw [set]
  split <;> rfl

theorem generation_setAt (a : Arena β) (s : Slice α) (i : Nat) (x : α) :
    (a.setAt s i x).2.generation = a.generation := by
  rw [setAt]
  repeat (split <;> try rfl)

end Arena

/-- An operation stays in its generation, and the handles issued before remain listed. -/
theorem Ledger.Move.keeps {β : Type} [Inhabited β] {l l' : Ledger β} (hm : l.Move l')
    (h : l.Sound) :
    l'.arena.generation = l.arena.generation ∧ ∀ x ∈ l.handles, x ∈ l'.handles := by
  have hgrow {a : Arena β} {new es : List (Entry β)} :
      ∀ x ∈ handles ⟨a, es⟩, x ∈ handles ⟨a, new ++ es⟩ := by
    intro x hx
    rw [handles, List.map_append]
    exact List.mem_append_right _ hx
  cases hm with
  | allocate a es n => exact ⟨(issue_allocate h.used_le n).generation, hgrow⟩
  | alloc a es k x => exact ⟨(issue_alloc h.used_le k x).generation, hgrow⟩
  | allocSlice a es k xs => exact ⟨(issue_allocSlice h.used_le k xs).generation, hgrow⟩
  | allocWithTail a es η k x xs =>
    exact ⟨(issue_allocWithTail h.used_le h.capacity_lt η k x xs).generation, hgrow⟩
  | set a front back k r x y => exact ⟨Arena.generation_set a r y, by simp [handles]⟩
  | setAt a front back k s xs i y => exact ⟨Arena.generation_setAt a s i y, by simp [handles]⟩
  | setStale a es k r y hg => exact ⟨Arena.generation_set a r y, fun x hx => hx⟩
  | setAtStale a es k s i y hg => exact ⟨Arena.generation_setAt a s i y, fun x hx => hx⟩

namespace Realm

variable {β : Type}

theorem generations_operate [Inhabited β] {w : Realm β} {k i : Nat} {t : Tenant β} {l : Ledger β}
    (h : w.Sound k) (ht : w.tenants[i]? = some t) (hl : t.ledger.Move l) :
    generations { w with tenants := w.tenants.set i { t with ledger := l } } = w.generations := by
  have hgen : l.arena.generation = t.arena.generation :=
    (hl.keeps (h.ledger t (List.mem_of_getElem? ht))).1
  obtain ⟨hi, hself⟩ := List.getElem?_eq_some_iff.mp (getElem?_generations ht)
  rw [generations, List.map_set]
  change w.generations.set i l.arena.generation = w.generations
  rw [hgen, ← hself]
  exact List.set_getElem_self hi

theorem Sound.operate [Inhabited β] {w : Realm β} {k i : Nat} {t : Tenant β} {l : Ledger β} (h : w.Sound k)
    (ht : w.tenants[i]? = some t) (hl : t.ledger.Move l) :
    Sound { w with tenants := w.tenants.set i { t with ledger := l } } k := by
  have hgens := generations_operate h ht hl
  refine ⟨h.numbered, ?_, hgens.symm ▸ h.known, hgens.symm ▸ h.apart⟩
  intro t' ht'
  rcases List.mem_or_eq_of_mem_set ht' with ht' | rfl
  · exact h.ledger t' ht'
  · exact hl.sound (h.ledger t (List.mem_of_getElem? ht))

/-! ## What becomes of an arena -/

/-- What can be said later about an arena that was once `t`: it keeps its generation and its
handles until it is reset, and no other arena or epoch has that generation. -/
structure Kept (i : Nat) (t : Tenant β) (w : Realm β) : Prop where
  issued : t.arena.generation ∈ w.issued
  tenant : ∃ t', w.tenants[i]? = some t' ∧ t.resets ≤ t'.resets ∧
    (t'.resets = t.resets → t'.arena.generation = t.arena.generation ∧
      ∀ x ∈ t.ledger.handles, x ∈ t'.ledger.handles)
  only : ∀ j t', w.tenants[j]? = some t' → t'.arena.generation = t.arena.generation →
    j = i ∧ t'.resets = t.resets

theorem Sound.kept {w : Realm β} {k i : Nat} {t : Tenant β} (h : w.Sound k)
    (ht : w.tenants[i]? = some t) : Kept i t w where
  issued := h.known_of_tenant ht
  tenant := ⟨t, ht, Nat.le_refl _, fun _ => ⟨rfl, fun _ hx => hx⟩⟩
  only j t' ht' hg := by
    obtain rfl := h.unique ht ht' hg
    rw [ht] at ht'
    cases ht'
    exact ⟨rfl, rfl⟩

theorem Kept.create {w : Realm β} {k i : Nat} {t : Tenant β} (hk : Kept i t w) (h : w.Sound k)
    (n : Nat) : Kept i t (w.create n) := by
  rcases w.create_cases n with hw | ⟨g, gens, hg, a, rfl, -, hw⟩
  · exact hw.symm ▸ hk
  · rw [hw]
    refine ⟨List.mem_cons_of_mem _ hk.issued, ?_, ?_⟩
    · obtain ⟨t', ht', hrest⟩ := hk.tenant
      have hi : i < w.tenants.length := (List.getElem?_eq_some_iff.mp ht').1
      exact ⟨t', (List.getElem?_append_left hi).trans ht', hrest⟩
    · intro j t' ht' hgen
      rw [List.getElem?_append] at ht'
      split at ht'
      · exact hk.only j t' ht' hgen
      · obtain rfl := List.mem_singleton.mp (List.mem_of_getElem? ht')
        exact absurd (hgen ▸ hk.issued) (h.not_issued hg)

theorem Kept.reset {w : Realm β} {k i : Nat} {t : Tenant β} (hk : Kept i t w) (h : w.Sound k)
    (m : Nat) : Kept i t (w.reset m) := by
  rcases w.reset_cases m with hw | ⟨g, gens, hg, t₀, a, ht₀, -, rfl, hw⟩
  · exact hw.symm ▸ hk
  · obtain ⟨hm, -⟩ := List.getElem?_eq_some_iff.mp ht₀
    rw [hw]
    refine ⟨List.mem_cons_of_mem _ hk.issued, ?_, ?_⟩
    · obtain ⟨t', ht', hle, hsame⟩ := hk.tenant
      by_cases hmi : m = i
      · subst hmi
        rw [ht₀] at ht'
        cases ht'
        refine ⟨_, List.getElem?_set_self hm, Nat.le_succ_of_le hle, fun heq => ?_⟩
        exact absurd (heq ▸ hle) (Nat.not_succ_le_self _)
      · exact ⟨t', (List.getElem?_set_ne hmi).trans ht', hle, hsame⟩
    · intro j t' ht' hgen
      by_cases hmj : m = j
      · subst hmj
        rw [List.getElem?_set_self hm] at ht'
        cases ht'
        exact absurd (hgen ▸ hk.issued) (h.not_issued hg)
      · exact hk.only j t' ((List.getElem?_set_ne hmj).symm.trans ht') hgen

theorem Kept.operate [Inhabited β] {w : Realm β} {k i m : Nat} {t t₀ : Tenant β} {l : Ledger β}
    (hk : Kept i t w) (h : w.Sound k) (ht₀ : w.tenants[m]? = some t₀) (hl : t₀.ledger.Move l) :
    Kept i t { w with tenants := w.tenants.set m { t₀ with ledger := l } } := by
  obtain ⟨hm, -⟩ := List.getElem?_eq_some_iff.mp ht₀
  obtain ⟨hgen₀, hhandles⟩ := hl.keeps (h.ledger t₀ (List.mem_of_getElem? ht₀))
  refine ⟨hk.issued, ?_, ?_⟩
  · obtain ⟨t', ht', hle, hsame⟩ := hk.tenant
    by_cases hmi : m = i
    · subst hmi
      rw [ht₀] at ht'
      cases ht'
      refine ⟨_, List.getElem?_set_self hm, hle, fun heq => ?_⟩
      obtain ⟨hgen, hall⟩ := hsame heq
      exact ⟨hgen₀.trans hgen, fun x hx => hhandles x (hall x hx)⟩
    · exact ⟨t', (List.getElem?_set_ne hmi).trans ht', hle, hsame⟩
  · intro j t' ht' hgen
    by_cases hmj : m = j
    · subst hmj
      rw [List.getElem?_set_self hm] at ht'
      cases ht'
      exact hk.only m t₀ ht₀ (hgen₀.symm.trans hgen)
    · exact hk.only j t' ((List.getElem?_set_ne hmj).symm.trans ht') hgen

/-! ## Every realm that comes about -/

variable [Inhabited β]

theorem Move.sound {w w' : Realm β} {k : Nat} (hm : Move w w') (h : w.Sound k) :
    (∃ k', w'.Sound k') ∧ ∀ i t, Kept i t w → Kept i t w' := by
  cases hm with
  | create n => exact ⟨h.create n, fun i t hk => hk.create h n⟩
  | operate ht hl => exact ⟨⟨k, h.operate ht hl⟩, fun i t hk => hk.operate h ht hl⟩
  | reset i => exact ⟨h.reset i, fun j t hk => hk.reset h i⟩

theorem Later.sound {w w' : Realm β} {k : Nat} (hl : Later w w') (h : w.Sound k) :
    (∃ k', w'.Sound k') ∧ ∀ i t, Kept i t w → Kept i t w' := by
  induction hl with
  | refl => exact ⟨⟨k, h⟩, fun _ _ hk => hk⟩
  | tail _ hm ih =>
    obtain ⟨⟨k', hs⟩, hkeep⟩ := ih
    obtain ⟨hs', hkeep'⟩ := hm.sound hs
    exact ⟨hs', fun i t hk => hkeep' i t (hkeep i t hk)⟩

theorem Reachable.sound {w : Realm β} (h : w.Reachable) : ∃ k, w.Sound k := by
  have hempty : Sound ({} : Realm β) 0 :=
    ⟨⟨wordLimit_pos, rfl, rfl⟩, fun _ ht => absurd ht List.not_mem_nil,
      fun _ ht => absurd ht List.not_mem_nil, List.nodup_nil⟩
  exact (Later.sound h hempty).1

/-- The numbers given out stay given out. -/
theorem Move.issued {w w' : Realm β} (hm : Move w w') {g : Nat} (hg : g ∈ w.issued) :
    g ∈ w'.issued := by
  cases hm with
  | create n =>
    rcases w.create_cases n with hw | ⟨_, _, -, _, -, -, hw⟩
    · exact hw.symm ▸ hg
    · exact hw.symm ▸ List.mem_cons_of_mem _ hg
  | operate _ _ => exact hg
  | reset i =>
    rcases w.reset_cases i with hw | ⟨_, _, -, _, _, -, -, -, hw⟩
    · exact hw.symm ▸ hg
    · exact hw.symm ▸ List.mem_cons_of_mem _ hg

theorem Later.issued {w w' : Realm β} (hl : Later w w') {g : Nat} (hg : g ∈ w.issued) :
    g ∈ w'.issued := by
  induction hl with
  | refl => exact hg
  | tail _ hm ih => exact hm.issued ih

end Realm

/-! ## Acceptance -/

section Acceptance

variable {β : Type}

theorem Arena.isLive_generation {a : Arena β} {addr : Addr} {n : Nat}
    (h : a.isLive addr n = true) : addr.generation = a.generation := by
  simp only [isLive, Bool.and_eq_true, beq_iff_eq] at h
  exact h.1

theorem Handle.AcceptedBy.generation {a : Arena β} {h : Handle β} (ha : h.AcceptedBy a)
    (hne : h.NonEmpty) : h.addr.generation = a.generation := by
  cases h with
  | run addr n => exact Arena.isLive_generation ha
  | value k r =>
    simp only [AcceptedBy, Arena.get?] at ha
    split at ha
    · next hlive => exact Arena.isLive_generation hlive
    · cases ha
  | slice k s =>
    simp only [AcceptedBy, Arena.slice?, if_neg hne] at ha
    split at ha
    · next hlive => exact @Arena.isLive_generation _ _ ⟨s.offset, s.generation⟩ _ hlive
    · cases ha

theorem Entry.Placed.accepted {a : Arena β} {e : Entry β} (h : e.Placed a) :
    a.isLive e.handle.addr 0 = true ∧ e.handle.AcceptedBy a := by
  have hstop : e.handle.addr.offset + e.handle.blocks ≤ a.used := h.stop_le
  have hlive : a.isLive e.handle.addr 0 = true := by
    simp only [Arena.isLive, Bool.and_eq_true, beq_iff_eq, decide_eq_true_eq]
    exact ⟨h.generation, by omega⟩
  have hreads := h.reads
  refine ⟨hlive, ?_⟩
  obtain ⟨handle, x⟩ := e
  cases handle with
  | run addr n => exact hlive
  | value k r => exact Option.isSome_of_eq_some hreads.1
  | slice k s => exact Option.isSome_of_eq_some hreads.1

end Acceptance

namespace Arena

variable {β : Type} {gens : Generations}

theorem create_of_spent (h : gens.issue? = none) (n : Nat) :
    (create n gens : Except ArenaError (Arena β × Generations)) =
      .error (if n = 0 ∨ wordLimit ≤ n then .reserve n else .generationsExhausted) := by
  rw [create]
  split
  · rfl
  · rw [h]

theorem reset_of_spent (h : gens.issue? = none) (a : Arena β) :
    a.reset gens = .error .generationsExhausted := by
  rw [reset, h]

end Arena

namespace Realm

variable {β : Type} [Inhabited β]

/-- Arena `j` of a later realm is in the epoch in which `h` was issued if and only if `h` is live
in it. -/
theorem isLive_iff {w w' : Realm β} {k i j : Nat} {t u : Tenant β} {h : Handle β}
    (hs : w.Sound k) (hl : Later w w') (ht : w.tenants[i]? = some t)
    (hu : w'.tenants[j]? = some u) (hh : h ∈ t.ledger.handles) :
    (u.arena.isLive h.addr 0 = true ↔ j = i ∧ u.resets = t.resets) ∧
      (h.NonEmpty → (h.AcceptedBy u.arena ↔ j = i ∧ u.resets = t.resets)) := by
  obtain ⟨⟨k', hs'⟩, hkeep⟩ := hl.sound hs
  have hkept := hkeep i t (hs.kept ht)
  have hissued : h.addr.generation = t.arena.generation := by
    obtain ⟨e, he, rfl⟩ := List.mem_map.mp hh
    exact ((hs.ledger t (List.mem_of_getElem? ht)).placed e he).generation
  have hback : u.arena.generation = h.addr.generation → j = i ∧ u.resets = t.resets :=
    fun hgen => hkept.only j u hu (hgen.trans hissued)
  have hforth : j = i ∧ u.resets = t.resets →
      u.arena.isLive h.addr 0 = true ∧ h.AcceptedBy u.arena := by
    rintro ⟨rfl, hresets⟩
    obtain ⟨t', ht', -, hsame⟩ := hkept.tenant
    rw [hu] at ht'
    cases ht'
    obtain ⟨e, he, rfl⟩ := List.mem_map.mp ((hsame hresets).2 h hh)
    exact ((hs'.ledger u (List.mem_of_getElem? hu)).placed e he).accepted
  refine ⟨⟨fun hlive => hback (Arena.isLive_generation hlive).symm, fun he => (hforth he).1⟩, ?_⟩
  intro hne
  exact ⟨fun ha => hback (ha.generation hne).symm, fun he => (hforth he).2⟩

end Realm

/-- A handle is accepted by the arena that issued it until that arena is reset, and by no other;
once refused it is refused for ever. No generation number is used twice: once the largest word was
given out, creating and resetting fail and change nothing. -/
theorem handles_stay_with_their_epoch {β : Type} [Inhabited β] {w : Realm β} (hw : w.Reachable) :
    w.issued.Nodup ∧
      (wordLimit - 1 ∈ w.issued → ∀ w', Realm.Later w w' →
        (∀ n, (Arena.create n w'.gens : Except ArenaError (Arena β × Generations)) =
            .error (if n = 0 ∨ wordLimit ≤ n then .reserve n else .generationsExhausted) ∧
          w'.create n = w') ∧
        ∀ i t, w'.tenants[i]? = some t →
          t.arena.reset w'.gens = .error .generationsExhausted ∧ w'.reset i = w') ∧
      ∀ (w' : Realm β) (i j : Nat) (t u : Tenant β) (h : Handle β), Realm.Later w w' →
        w.tenants[i]? = some t → w'.tenants[j]? = some u → h ∈ t.ledger.handles →
          (u.arena.isLive h.addr 0 = true ↔ j = i ∧ u.resets = t.resets) ∧
          (h.NonEmpty → (h.AcceptedBy u.arena ↔ j = i ∧ u.resets = t.resets)) ∧
          ∀ (w'' : Realm β) (v : Tenant β), Realm.Later w' w'' → w''.tenants[j]? = some v →
            u.arena.isLive h.addr 0 = false →
              v.arena.isLive h.addr 0 = false ∧ (h.NonEmpty → ¬ h.AcceptedBy v.arena) := by
  obtain ⟨k, hs⟩ := hw.sound
  refine ⟨hs.numbered.nodup, ?_, ?_⟩
  · intro hmax w' hl
    obtain ⟨⟨k', hs'⟩, -⟩ := hl.sound hs
    have hspent := hs'.spent (hl.issued hmax)
    refine ⟨fun n => ?_, fun i t ht => ?_⟩
    · have hc := Arena.create_of_spent (β := β) hspent n
      exact ⟨hc, by rw [Realm.create, hc]⟩
    · have hr := Arena.reset_of_spent hspent t.arena
      exact ⟨hr, by simp only [Realm.reset, ht, hr]⟩
  · intro w' i j t u h hl ht hu hh
    have hiff := Realm.isLive_iff hs hl ht hu hh
    refine ⟨hiff.1, hiff.2, ?_⟩
    intro w'' v hl' hv hdead
    obtain ⟨hlive, haccept⟩ := Realm.isLive_iff hs (hl.trans hl') ht hv hh
    have hold : ¬ (j = i ∧ v.resets = t.resets) := by
      rintro ⟨rfl, hresets⟩
      obtain ⟨⟨k', hs'⟩, hkeep⟩ := hl.sound hs
      obtain ⟨u', hu', hle, -⟩ := (hkeep j t (hs.kept ht)).tenant
      rw [hu] at hu'
      cases hu'
      obtain ⟨v', hv', hle', -⟩ := ((hl'.sound hs').2 j u (hs'.kept hu)).tenant
      rw [hv] at hv'
      cases hv'
      have hlive' := hiff.1.mpr ⟨rfl, by omega⟩
      rw [hdead] at hlive'
      cases hlive'
    refine ⟨?_, fun hne ha => hold ((haccept hne).mp ha)⟩
    rw [Bool.eq_false_iff]
    exact fun hl'' => hold (hlive.mp hl'')

namespace Realm

/-- Every word but zero is given out in some realm: an arena is reset again and again. -/
theorem exists_numbered (β : Type) [Inhabited β] (k : Nat) (hk : k + 1 < wordLimit) :
    ∃ (w : Realm β) (t : Tenant β),
      w.Reachable ∧ w.Numbered (k + 1) ∧ w.tenants[0]? = some t := by
  induction k with
  | zero =>
    exact ⟨create {} 1, ⟨⟨⟨1, #[], 0, 1⟩, []⟩, 0⟩, .single (.create {} 1), ⟨hk, rfl, rfl⟩, rfl⟩
  | succ k ih =>
    obtain ⟨w, t, hw, hn, ht⟩ := ih (by omega)
    have hissue : w.gens.issue? = some (k + 1 + 1, ⟨(k + 1 + 2) % wordLimit⟩) := by
      rw [hn.issue?, if_pos hk]
    obtain ⟨t', hreset⟩ : ∃ t', w.reset 0 =
        ⟨w.tenants.set 0 t', ⟨(k + 1 + 2) % wordLimit⟩, (k + 1 + 1) :: w.issued⟩ := by
      simp only [reset, ht, Arena.reset, hissue]
      exact ⟨_, rfl⟩
    refine ⟨w.reset 0, t', hw.tail (.reset w 0), ?_, ?_⟩
    · rw [hreset]
      exact (hn.next hissue _).2
    · rw [hreset]
      exact List.getElem?_set_self (List.getElem?_eq_some_iff.mp ht).1

end Realm

/-- Two arenas of four blocks, the first of which issued a run of two blocks. -/
def twoArenas : Realm ByteBlock where
  tenants :=
    [⟨⟨((⟨4, #[], 0, 1⟩ : Arena ByteBlock).allocate 2).2, [⟨.run ⟨0, 1⟩ 2, ()⟩]⟩, 0⟩,
      ⟨⟨⟨4, #[], 0, 2⟩, []⟩, 0⟩]
  gens := ⟨3⟩
  issued := [2, 1]

theorem twoArenas_reachable : twoArenas.Reachable := by
  have h₁ : Realm.Reachable (Realm.create (Realm.create {} 4) 4 : Realm ByteBlock) :=
    (Relation.ReflTransGen.single (.create {} 4)).tail (.create _ 4)
  have ht : (Realm.create (Realm.create {} 4) 4 : Realm ByteBlock).tenants[0]? =
      some ⟨⟨⟨4, #[], 0, 1⟩, []⟩, 0⟩ := rfl
  exact h₁.tail (.operate _ ht (.allocate ⟨4, #[], 0, 1⟩ [] 2))

/-- The run is live in its own arena, not in the other one, and after a reset nowhere; and there
are realms in which the counter is spent. -/
theorem handles_stay_with_their_epoch_twoArenas :
    (∃ t u v : Tenant ByteBlock, twoArenas.tenants[0]? = some t ∧ twoArenas.tenants[1]? = some u ∧
      (twoArenas.reset 0).tenants[0]? = some v ∧ t.arena.isLive ⟨0, 1⟩ 0 = true ∧
      ¬ u.arena.isLive ⟨0, 1⟩ 0 = true ∧ ¬ v.arena.isLive ⟨0, 1⟩ 0 = true) ∧
    ∃ (w : Realm ByteBlock) (t : Tenant ByteBlock), w.Reachable ∧ w.tenants[0]? = some t ∧
      w.create 1 = w ∧ t.arena.reset w.gens = .error .generationsExhausted := by
  constructor
  · have hlive := (handles_stay_with_their_epoch twoArenas_reachable).2.2
    have hmem : .run ⟨0, 1⟩ 2 ∈ (twoArenas.tenants[0]).ledger.handles := List.mem_singleton_self _
    refine ⟨_, _, _, rfl, rfl, rfl, ?_, ?_, ?_⟩
    · exact (hlive _ 0 0 _ _ _ .refl rfl rfl hmem).1.mpr ⟨rfl, rfl⟩
    · intro h
      have hsame := (hlive _ 0 1 _ _ _ .refl rfl rfl hmem).1.mp h
      exact absurd hsame.1 (by decide)
    · intro h
      have hsame := (hlive _ 0 0 _ _ _ (.single (.reset _ 0)) rfl rfl hmem).1.mp h
      exact absurd hsame.2 (by decide)
  · obtain ⟨w, t, hw, hn, ht⟩ := Realm.exists_numbered ByteBlock (wordLimit - 2) (by decide)
    have hmax : wordLimit - 1 ∈ w.issued := hn.mem_iff.mpr (by decide)
    obtain ⟨hcreate, hreset⟩ := (handles_stay_with_their_epoch hw).2.1 hmax w .refl
    exact ⟨w, t, hw, ht, (hcreate 1).2, (hreset 0 t ht).1⟩

end ClosureMachine
