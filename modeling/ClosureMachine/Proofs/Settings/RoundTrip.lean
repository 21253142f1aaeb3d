import Mathlib.Data.List.Nodup
import ClosureMachine.Proofs.Settings.Lawful

/-!
Settings written and read again by a lawful codec. The sections of settings are plain if their
numbers fit in 64 bits (`Small.plain`), and a table that has these sections gives the settings field
by field (`spells_of_hasSections`). No text gives settings with larger numbers (`small_of_read`), so
settings that were read once survive writing in any case.
-/

namespace ClosureMachine

open Toml

/-! ## Fields that are set -/

section Fields

variable {fields : List (String × Option Nat)}

theorem mem_setFields {name : String} {n : Nat} :
    (name, n) ∈ setFields fields ↔ (name, some n) ∈ fields := by
  simp [setFields]

theorem setFields_keys_sublist :
    ((setFields fields).map Prod.fst).Sublist (fields.map Prod.fst) := by
  induction fields with
  | nil => exact .slnil
  | cons f fields ih =>
    obtain ⟨name, o⟩ := f
    cases o with
    | none => exact ih.cons name
    | some n => exact ih.cons_cons name

/-- The numbers of the fields that are set give all the fields, if names are distinct. -/
theorem Toml.Entries.HasNumbers.gives {t : Entries} (h : t.HasNumbers (setFields fields))
    (hnodup : (fields.map Prod.fst).Nodup) : t.Gives fields := by
  refine ⟨fun f hf => ?_, fun key hkey => setFields_keys_sublist.subset (h.only key hkey)⟩
  obtain ⟨name, o⟩ := f
  cases o with
  | some n => exact h.number (name, n) (mem_setFields.mpr hf)
  | none =>
    cases hlookup : t.lookup name with
    | none => rfl
    | some v =>
      obtain ⟨e, he, hname⟩ := List.mem_map.mp (h.only name (by simp [hlookup]))
      have hset : (e.1, some e.2) ∈ fields := mem_setFields.mp he
      have heq : ((e.1, some e.2) : String × Option Nat) = (name, none) :=
        List.inj_on_of_nodup_map hnodup hset hf hname
      cases heq

end Fields

namespace Settings

/-! ## The sections of settings -/

theorem nodup_arena (s : ArenaSettings) : (s.fields.map Prod.fst).Nodup := by
  simp [ArenaSettings.fields]

theorem nodup_exec (s : ExecSettings) : (s.fields.map Prod.fst).Nodup := by
  simp [ExecSettings.fields]

theorem nodup_sections (s : Settings) : (s.sections.map Section.name).Nodup := by
  simp [sections]

/-- A section of fields is plain if their names are bare and distinct and their numbers small. -/
theorem plain_setFields {name : String} {fields : List (String × Option Nat)} (hname : IsBare name)
    (hkeys : ∀ key ∈ fields.map Prod.fst, IsBare key) (hnodup : (fields.map Prod.fst).Nodup)
    (hsmall : ∀ key n, (key, some n) ∈ fields → n ≤ maxInteger) :
    Section.Plain ⟨name, setFields fields⟩ where
  name := hname
  keys e he := hkeys e.1 (setFields_keys_sublist.subset (List.mem_map_of_mem he))
  distinct := setFields_keys_sublist.nodup hnodup
  small e he := hsmall e.1 e.2 (mem_setFields.mp he)

theorem Small.plain {s : Settings} (h : s.Small) : ∀ x ∈ s.sections, x.Plain := by
  have harena : Section.Plain ⟨"arena", setFields s.arena.fields⟩ := by
    refine plain_setFields (by decide) ?_ (nodup_arena s.arena) fun key n hn =>
      h n ⟨key, List.mem_append_left _ hn⟩
    have hbare : ∀ key ∈ ["capacity_blocks", "capacity_bytes"], IsBare key := by decide
    exact hbare
  have hexec : Section.Plain ⟨"exec", setFields s.exec.fields⟩ := by
    refine plain_setFields (by decide) ?_ (nodup_exec s.exec) fun key n hn =>
      h n ⟨key, List.mem_append_right _ hn⟩
    have hbare : ∀ key ∈ ["instruction_limit"], IsBare key := by decide
    exact hbare
  exact List.forall_mem_cons.mpr ⟨harena, List.forall_mem_singleton.mpr hexec⟩

theorem spells_of_hasSections {t : Entries} {s : Settings} (h : t.HasSections s.sections) :
    t.Spells s := by
  obtain ⟨u, harena, hu⟩ := h.sections ⟨"arena", setFields s.arena.fields⟩ List.mem_cons_self
  obtain ⟨u', hexec, hu'⟩ := h.sections ⟨"exec", setFields s.exec.fields⟩
    (List.mem_cons_of_mem _ List.mem_cons_self)
  exact ⟨.inr ⟨u, harena, hu.gives (nodup_arena s.arena)⟩,
    .inr ⟨u', hexec, hu'.gives (nodup_exec s.exec)⟩, h.only⟩

end Settings

/-! ## Writing and reading -/

namespace SettingsCodec

variable {c : SettingsCodec}

theorem read_eq_ok_iff (text : String) (s : Settings) :
    c.read text = .ok s ↔ (c.parse text).bind c.decode = some s ∧ s.defect? = none := by
  rw [read]
  cases (c.parse text).bind c.decode with
  | none => simp
  | some s' =>
    cases hd : s'.defect? with
    | none => grind
    | some d => grind

namespace Lawful

theorem small_of_read (hc : c.Lawful) {text : String} {s : Settings} (h : c.read text = .ok s) :
    s.Small := by
  obtain ⟨t, ht, hs⟩ := Option.bind_eq_some_iff.mp ((read_eq_ok_iff text s).mp h).1
  intro n hn
  exact Int.ofNat_le.mp (hc.parse.integers text t ht n (hc.numbers t s hs n hn))

theorem read_text (hc : c.Lawful) {s : Settings} (hs : s.Small) (hdefect : s.defect? = none) :
    c.write s = some s.text ∧ c.read s.text = .ok s := by
  obtain ⟨t, ht, hsections⟩ := hc.parse.sections s.sections hs.plain (Settings.nodup_sections s)
  have hdecode : c.decode t = some s := hc.decode t s (Settings.spells_of_hasSections hsections)
  refine ⟨hc.write s hs, (read_eq_ok_iff s.text s).mpr ⟨?_, hdefect⟩⟩
  rw [Settings.text, ht, Option.bind_some, hdecode]

end Lawful

end SettingsCodec

namespace Settings

/-- Settings are what is read from what they are written as: all sound settings with numbers of 64
bits, and all settings that any text gives. -/
theorem settings_survive_writing {c : SettingsCodec} (hc : c.Lawful) :
    (∀ s : Settings, s.defect? = none → s.Small →
      c.write s = some s.text ∧ c.read s.text = .ok s) ∧
      ∀ (text : String) (s : Settings), c.read text = .ok s →
        c.write s = some s.text ∧ c.read s.text = .ok s :=
  ⟨fun _ hdefect hs => hc.read_text hs hdefect, fun text s h =>
    hc.read_text (hc.small_of_read h) ((SettingsCodec.read_eq_ok_iff text s).mp h).2⟩

/-- Settings with the largest number that can be read. -/
def longRun : Settings where
  arena := { capacityBytes := some 1 }
  exec := { instructionLimit := some 9223372036854775807 }

/-- Both ways round: settings that are written first, and a text that no settings are written as. -/
theorem settings_survive_writing_largest :
    SettingsCodec.toml.Lawful ∧ longRun.defect? = none ∧ longRun.Small ∧
      longRun.text = "[arena]\ncapacity_bytes = 1\n\n[exec]\ninstruction_limit = " ++
        "9223372036854775807\n" ∧
      SettingsCodec.toml.read longRun.text = .ok longRun ∧
      SettingsCodec.toml.read "exec = \x7b instruction_limit = 0x1F \x7d" =
        .ok { exec := { instructionLimit := some 31 } } ∧
      SettingsCodec.toml.read (text { exec := { instructionLimit := some 31 } }) =
        .ok { exec := { instructionLimit := some 31 } } := by
  have hdefect : longRun.defect? = none := by decide
  have hsmall : longRun.Small := by
    rintro n ⟨name, hn⟩
    simp [longRun, ArenaSettings.fields, ExecSettings.fields] at hn
    rcases hn with ⟨-, rfl⟩ | ⟨-, rfl⟩ <;> decide
  have htext : longRun.text = "[arena]\ncapacity_bytes = 1\n\n[exec]\ninstruction_limit = " ++
      "9223372036854775807\n" := by decide +kernel
  have hbraces : SettingsCodec.toml.read "exec = \x7b instruction_limit = 0x1F \x7d" =
      .ok { exec := { instructionLimit := some 31 } } := by decide +kernel
  have hsurvive := settings_survive_writing SettingsCodec.toml_lawful
  exact ⟨SettingsCodec.toml_lawful, hdefect, hsmall, htext,
    (hsurvive.1 longRun hdefect hsmall).2, hbraces, (hsurvive.2 _ _ hbraces).2⟩

end Settings

end ClosureMachine
