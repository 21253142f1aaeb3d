import ClosureMachine.Event
import ClosureMachine.Files.Tree
import ClosureMachine.Settings.Codec

/-!
Finding settings: they are in the file of a fixed name that is nearest to a directory, looking in
the directory itself and then outwards.
-/

namespace ClosureMachine

inductive LoadError where
  | unreadable (path : String) (fault : ReadFault)
  | settings (e : SettingsError)
  deriving DecidableEq, Repr

namespace Settings

def fileName : String := "snail.toml"

def load (c : SettingsCodec) (t : FileTree) (here : List String) (path : String) :
    Except LoadError Settings :=
  match t.readText here path with
  | .error fault => .error (.unreadable path fault)
  | .ok text =>
    match c.read text with
    | .error e => .error (.settings e)
    | .ok s => .ok s

/-- The nearest settings file, from a directory outwards. -/
def findFrom? (t : FileTree) (here : List String) (start : String) : Option String :=
  ((Path.ancestors start).map (Path.join · fileName)).find? (t.isFile here)

def find? (t : FileTree) (here : List String) : Option String :=
  findFrom? t [] ("/" ++ "/".intercalate here)

/-- The nearest settings, or the defaults if there is no settings file. -/
def discover (c : SettingsCodec) (t : FileTree) (here : List String) :
    Except LoadError Settings :=
  match find? t here with
  | some path => load c t [] path
  | none => .ok {}

def loadedEvent (path : String) : Event := ⟨.debug, "loaded runtime config", [("path", path)]⟩

end Settings

/-- The wording of a failure to load settings; a text that is no TOML has no wording of its own. -/
def LoadError.message? : LoadError → Option String
  | unreadable path fault => some s!"cannot read '{path}': {fault.message}"
  | settings (.invalid defect) => some defect.message
  | settings .unparsable => none

end ClosureMachine
