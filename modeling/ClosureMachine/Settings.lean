import ClosureMachine.Arena.Basic

/-!
Settings of a machine: how large its arena is, in blocks or in bytes, and how many instructions a
run may execute. Absent settings take their defaults.
-/

namespace ClosureMachine

/-- Size of the arena; at most one of the two may be given. -/
structure ArenaSettings where
  capacityBlocks : Option Nat := none
  capacityBytes : Option Nat := none
  deriving DecidableEq, Repr, Inhabited

structure ExecSettings where
  /-- The most instructions per run; none for no limit. -/
  instructionLimit : Option Nat := none
  deriving DecidableEq, Repr, Inhabited

structure Settings where
  arena : ArenaSettings := {}
  exec : ExecSettings := {}
  deriving DecidableEq, Repr, Inhabited

inductive SettingsDefect where
  | twoCapacities
  | noCapacity
  | noInstructions
  deriving DecidableEq, Repr

def SettingsDefect.message : SettingsDefect → String
  | twoCapacities =>
    "invalid configuration: " ++
      "arena.capacity_blocks and arena.capacity_bytes are mutually exclusive"
  | noCapacity => "invalid configuration: arena capacity must be > 0"
  | noInstructions => "invalid configuration: exec.instruction_limit must be > 0"

namespace ArenaSettings

def ofBlocks (n : Nat) : ArenaSettings := { capacityBlocks := some n }

/-- The capacity in blocks: blocks as given, else the blocks that hold the bytes given, else the
default. -/
def blocks (s : ArenaSettings) : Nat :=
  match s.capacityBlocks, s.capacityBytes with
  | some n, _ => n
  | none, some bytes => blocksFor bytes
  | none, none => defaultCapacity

def fields (s : ArenaSettings) : List (String × Option Nat) :=
  [("capacity_blocks", s.capacityBlocks), ("capacity_bytes", s.capacityBytes)]

def build {β : Type} (s : ArenaSettings) (gens : Generations) :
    Except ArenaError (Arena β × Generations) :=
  Arena.create s.blocks gens

end ArenaSettings

def ExecSettings.fields (s : ExecSettings) : List (String × Option Nat) :=
  [("instruction_limit", s.instructionLimit)]

namespace Settings

def defect? (s : Settings) : Option SettingsDefect :=
  if s.arena.capacityBlocks.isSome && s.arena.capacityBytes.isSome then some .twoCapacities
  else if s.arena.blocks = 0 then some .noCapacity
  else if s.exec.instructionLimit = some 0 then some .noInstructions
  else none

end Settings

end ClosureMachine
