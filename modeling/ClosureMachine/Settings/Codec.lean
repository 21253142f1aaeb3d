import ClosureMachine.Settings
import ClosureMachine.Toml.Value

/-!
Settings as TOML text. Reading documents, decoding their tables and writing settings are left to a
codec; a reader of settings is sound whatever its codec, for it checks what it has decoded.
-/

namespace ClosureMachine

inductive SettingsError where
  | unparsable
  | invalid (defect : SettingsDefect)
  deriving DecidableEq, Repr

/-- The TOML library that settings are read and written by, and how they are coded in its data. -/
structure SettingsCodec where
  /-- The data of a text, if the text is a document. -/
  parse : String → Option Toml.Entries
  decode : Toml.Entries → Option Settings
  write : Settings → Option String

/-- Read settings, which must be without defect. -/
def SettingsCodec.read (c : SettingsCodec) (text : String) : Except SettingsError Settings :=
  match (c.parse text).bind c.decode with
  | none => .error .unparsable
  | some s =>
    match s.defect? with
    | some d => .error (.invalid d)
    | none => .ok s

def setFields (fields : List (String × Option Nat)) : List (String × Nat) :=
  fields.filterMap fun f => f.2.map (f.1, ·)

namespace Settings

def sections (s : Settings) : List Toml.Section :=
  [⟨"arena", setFields s.arena.fields⟩, ⟨"exec", setFields s.exec.fields⟩]

def text (s : Settings) : String := Toml.Section.document s.sections

end Settings

end ClosureMachine
