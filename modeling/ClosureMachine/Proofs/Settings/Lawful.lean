import ClosureMachine.Proofs.Toml.Conformance
import ClosureMachine.Settings.Text

/-!
What is relied on of a codec of settings, `SettingsCodec.Lawful`: it reads TOML, it decodes the two
tables field by field, it takes its numbers from the integers of the document, and it writes the
fields that are set, section by section. The codec for TOML 1.0 is lawful
(`SettingsCodec.toml_lawful`).
-/

namespace ClosureMachine

open Toml

/-! ## Laws -/

/-- The table gives the fields of a structure: a field that is set is an integer of its name, a
field that is not is absent, and there is nothing else. -/
structure Toml.Entries.Gives (t : Entries) (fields : List (String × Option Nat)) : Prop where
  field : ∀ f ∈ fields, t.lookup f.1 = f.2.map fun n => .scalar (.integer n)
  only : ∀ key, (t.lookup key).isSome → key ∈ fields.map Prod.fst

/-- The table gives the settings; the default settings of a table need not be there. -/
structure Toml.Entries.Spells (t : Entries) (s : Settings) : Prop where
  arena : (t.lookup "arena" = none ∧ s.arena = {}) ∨
    ∃ u, t.lookup "arena" = some (.table u) ∧ Entries.Gives u s.arena.fields
  exec : (t.lookup "exec" = none ∧ s.exec = {}) ∨
    ∃ u, t.lookup "exec" = some (.table u) ∧ Entries.Gives u s.exec.fields
  only : ∀ key, (t.lookup key).isSome → key ∈ ["arena", "exec"]

/-- A field is set to the number. -/
def Settings.Sets (s : Settings) (n : Nat) : Prop :=
  ∃ name, (name, some n) ∈ s.arena.fields ++ s.exec.fields

/-- All numbers that are set are at most the largest of 64 bits. -/
def Settings.Small (s : Settings) : Prop := ∀ n, s.Sets n → n ≤ maxInteger

structure SettingsCodec.Lawful (c : SettingsCodec) : Prop where
  parse : Conforms c.parse
  decode : ∀ t s, Entries.Spells t s → c.decode t = some s
  numbers : ∀ t s, c.decode t = some s → ∀ n, s.Sets n → Entries.Has t n
  write : ∀ s, s.Small → c.write s = some s.text

/-! ## Decoding tables that give settings -/

namespace Toml.Entries

variable {t : Entries}

theorem onlyHas_of_lookup {names : List String}
    (h : ∀ key, (t.lookup key).isSome → key ∈ names) : t.onlyHas names = true := by
  refine List.all_eq_true.mpr fun e he => List.contains_iff_mem.mpr (h e.1 ?_)
  exact List.lookup_isSome_iff.mpr ⟨e, he, beq_self_eq_true e.1⟩

theorem natural?_of_lookup {name : String} {n : Option Nat}
    (h : t.lookup name = n.map fun n => .scalar (.integer n)) : t.natural? name = some n := by
  cases n with
  | none => simp [natural?, h]
  | some n => simp [natural?, h, Value.natural?]

theorem Gives.arena {s : ArenaSettings} (h : t.Gives s.fields) :
    ArenaSettings.ofValue? (.table t) = some s := by
  have hblocks : t.natural? "capacity_blocks" = some s.capacityBlocks :=
    natural?_of_lookup (h.field ("capacity_blocks", _) (by simp [ArenaSettings.fields]))
  have hbytes : t.natural? "capacity_bytes" = some s.capacityBytes :=
    natural?_of_lookup (h.field ("capacity_bytes", _) (by simp [ArenaSettings.fields]))
  have honly : t.onlyHas ["capacity_blocks", "capacity_bytes"] = true := onlyHas_of_lookup h.only
  simp [ArenaSettings.ofValue?, Value.entries?, honly, hblocks, hbytes]

theorem Gives.exec {s : ExecSettings} (h : t.Gives s.fields) :
    ExecSettings.ofValue? (.table t) = some s := by
  have hlimit : t.natural? "instruction_limit" = some s.instructionLimit :=
    natural?_of_lookup (h.field ("instruction_limit", _) (by simp [ExecSettings.fields]))
  have honly : t.onlyHas ["instruction_limit"] = true := onlyHas_of_lookup h.only
  simp [ExecSettings.ofValue?, Value.entries?, honly, hlimit]

theorem Spells.ofEntries? {s : Settings} (h : t.Spells s) :
    Settings.ofEntries? t = some s := by
  have honly : t.onlyHas ["arena", "exec"] = true := onlyHas_of_lookup h.only
  rcases h.arena with ⟨ha, hdefault⟩ | ⟨u, ha, hu⟩ <;>
    rcases h.exec with ⟨he, hdefault'⟩ | ⟨u', he, hu'⟩
  · simp [Settings.ofEntries?, honly, ha, he, ← hdefault, ← hdefault']
  · simp [Settings.ofEntries?, honly, ha, he, ← hdefault, hu'.exec]
  · simp [Settings.ofEntries?, honly, ha, he, hu.arena, ← hdefault']
  · simp [Settings.ofEntries?, honly, ha, he, hu.arena, hu'.exec]

end Toml.Entries

/-! ## Where numbers come from -/

theorem Toml.Value.has_of_natural? {v : Value} {n : Nat} (h : v.natural? = some n) : v.Has n := by
  unfold natural? at h
  split at h
  · split at h
    · next hn =>
      cases h
      rw [Int.toNat_of_nonneg hn]
      exact .integer
    · cases h
  · cases h

namespace Toml.Entries

variable {t : Entries}

theorem has_of_lookup {name : String} {v : Value} (h : t.lookup name = some v) {n : Int}
    (hv : v.Has n) : t.Has n := by
  obtain ⟨before, after, hsplit, -⟩ := List.lookup_eq_some_iff.mp h
  have hmem : (name, v) ∈ t := by simp [hsplit]
  exact .entry hmem hv

theorem has_of_natural? {name : String} {o : Option Nat} (h : t.natural? name = some o) {n : Nat}
    (hn : o = some n) : t.Has n := by
  cases hn
  rw [natural?] at h
  split at h
  · cases h
  · next v hv =>
    obtain ⟨m, hm, hout⟩ := Option.map_eq_some_iff.mp h
    cases hout
    exact has_of_lookup hv (Value.has_of_natural? hm)

end Toml.Entries

theorem Toml.Value.has_of_entries? {v : Value} {t : Entries} (h : v.entries? = some t) {n : Int}
    (hn : t.Has n) : v.Has n := by
  unfold entries? at h
  split at h
  · cases h
    exact hn
  · cases h

theorem ArenaSettings.has_of_ofValue? {v : Value} {s : ArenaSettings} (h : ofValue? v = some s)
    {name : String} {n : Nat} (hn : (name, some n) ∈ s.fields) : v.Has n := by
  simp only [fields, List.mem_cons, Prod.mk.injEq, List.not_mem_nil, or_false] at hn
  have hset : some n = s.capacityBlocks ∨ some n = s.capacityBytes := hn.imp And.right And.right
  unfold ofValue? at h
  split at h
  · next blocks bytes _ =>
    obtain ⟨m, hm, h⟩ := Option.bind_eq_some_iff.mp h
    obtain ⟨k, hk, h⟩ := Option.bind_eq_some_iff.mp h
    cases h
    rcases hset with hset | hset <;> cases hset
    · exact .element (by simp) (Value.has_of_natural? hm)
    · exact .element (List.mem_cons_of_mem blocks List.mem_cons_self) (Value.has_of_natural? hk)
  · obtain ⟨t, ht, h⟩ := Option.bind_eq_some_iff.mp h
    split at h
    · obtain ⟨o, ho, h⟩ := Option.bind_eq_some_iff.mp h
      obtain ⟨o', ho', h⟩ := Option.bind_eq_some_iff.mp h
      cases h
      refine Value.has_of_entries? ht ?_
      rcases hset with hset | hset
      · exact Entries.has_of_natural? ho hset.symm
      · exact Entries.has_of_natural? ho' hset.symm
    · cases h

theorem ExecSettings.has_of_ofValue? {v : Value} {s : ExecSettings} (h : ofValue? v = some s)
    {name : String} {n : Nat} (hn : (name, some n) ∈ s.fields) : v.Has n := by
  simp only [fields, List.mem_singleton, Prod.mk.injEq] at hn
  have hset : some n = s.instructionLimit := hn.2
  unfold ofValue? at h
  split at h
  · obtain ⟨m, hm, h⟩ := Option.bind_eq_some_iff.mp h
    cases h
    cases hset
    exact .element List.mem_cons_self (Value.has_of_natural? hm)
  · obtain ⟨t, ht, h⟩ := Option.bind_eq_some_iff.mp h
    split at h
    · obtain ⟨o, ho, h⟩ := Option.bind_eq_some_iff.mp h
      cases h
      exact Value.has_of_entries? ht (Entries.has_of_natural? ho hset.symm)
    · cases h

namespace Settings

/-- Each of the two tables is absent or gives its settings. -/
theorem tables_of_ofEntries? {t : Entries} {s : Settings} (h : ofEntries? t = some s) :
    (s.arena = {} ∨ ∃ v, t.lookup "arena" = some v ∧ ArenaSettings.ofValue? v = some s.arena) ∧
      (s.exec = {} ∨ ∃ v, t.lookup "exec" = some v ∧ ExecSettings.ofValue? v = some s.exec) := by
  rw [ofEntries?] at h
  split at h
  · cases harena : t.lookup "arena" <;> cases hexec : t.lookup "exec" <;>
      simp only [harena, hexec, Option.bind_eq_bind, Option.bind_eq_some_iff, Option.pure_def,
        Option.some.injEq] at h <;> grind
  · cases h

theorem has_of_ofEntries? {t : Entries} {s : Settings} (h : ofEntries? t = some s) {n : Nat}
    (hn : s.Sets n) : t.Has n := by
  obtain ⟨harena, hexec⟩ := tables_of_ofEntries? h
  obtain ⟨name, hn⟩ := hn
  rcases List.mem_append.mp hn with hn | hn
  · rcases harena with hdefault | ⟨v, hv, harena⟩
    · simp [hdefault, ArenaSettings.fields] at hn
    · exact Entries.has_of_lookup hv (ArenaSettings.has_of_ofValue? harena hn)
  · rcases hexec with hdefault | ⟨v, hv, hexec⟩
    · simp [hdefault, ExecSettings.fields] at hn
    · exact Entries.has_of_lookup hv (ExecSettings.has_of_ofValue? hexec hn)

theorem Small.text? {s : Settings} (h : s.Small) : s.text? = some s.text := by
  refine if_pos (List.all_eq_true.mpr fun f hf => ?_)
  obtain ⟨name, o⟩ := f
  cases o with
  | none => rfl
  | some n => exact decide_eq_true (h n ⟨name, hf⟩)

end Settings

theorem SettingsCodec.toml_lawful : toml.Lawful where
  parse := parse?_conforms
  decode _ _ h := h.ofEntries?
  numbers _ _ h _ hn := Settings.has_of_ofEntries? h hn
  write _ h := h.text?

end ClosureMachine
