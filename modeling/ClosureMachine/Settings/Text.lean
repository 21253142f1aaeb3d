import ClosureMachine.Settings.Codec
import ClosureMachine.Toml.Document

/-!
The codec of settings for TOML 1.0. Two tables hold settings; no other name may occur, and every
number is a natural number of 64 bits. A table of settings may also be given as the array of its
values in order.
-/

namespace ClosureMachine

namespace Toml

/-- A number that is not negative. -/
def Value.natural? : Value → Option Nat
  | .scalar (.integer n) => if 0 ≤ n then some n.toNat else none
  | _ => none

def Value.entries? : Value → Option Entries
  | .table t => some t
  | _ => none

/-- Whether all names are among those allowed. -/
def Entries.onlyHas (t : Entries) (names : List String) : Bool :=
  t.all fun e => names.contains e.1

/-- The number under a name: nothing if the name is absent, a failure if it holds no number. -/
def Entries.natural? (t : Entries) (name : String) : Option (Option Nat) :=
  match t.lookup name with
  | none => some none
  | some v => v.natural?.map some

end Toml

namespace ArenaSettings

def ofValue? (v : Toml.Value) : Option ArenaSettings :=
  match v with
  | .array (blocks :: bytes :: _) => do return ⟨some (← blocks.natural?), some (← bytes.natural?)⟩
  | v => do
    let t ← v.entries?
    if t.onlyHas ["capacity_blocks", "capacity_bytes"] then
      return ⟨← t.natural? "capacity_blocks", ← t.natural? "capacity_bytes"⟩
    else none

end ArenaSettings

namespace ExecSettings

def ofValue? (v : Toml.Value) : Option ExecSettings :=
  match v with
  | .array (limit :: _) => do return ⟨some (← limit.natural?)⟩
  | v => do
    let t ← v.entries?
    if t.onlyHas ["instruction_limit"] then return ⟨← t.natural? "instruction_limit"⟩ else none

end ExecSettings

namespace Settings

def ofEntries? (t : Toml.Entries) : Option Settings :=
  if t.onlyHas ["arena", "exec"] then do
    let arena ← match t.lookup "arena" with
      | none => some {}
      | some v => ArenaSettings.ofValue? v
    let exec ← match t.lookup "exec" with
      | none => some {}
      | some v => ExecSettings.ofValue? v
    return { arena, exec }
  else none

/-- The text of settings, unless they have a number that TOML has not. -/
def text? (s : Settings) : Option String :=
  if (s.arena.fields ++ s.exec.fields).all fun f => f.2.all (· ≤ Toml.maxInteger) then some s.text
  else none

end Settings

def SettingsCodec.toml : SettingsCodec := ⟨Toml.parse?, Settings.ofEntries?, Settings.text?⟩

end ClosureMachine
