import ClosureMachine.Machine.Step

/-!
Runs: steps from an entry until the machine halts or fails. A run may have a deadline, which is
looked at before the first instruction and then after every 1024. Since a program need not end, a
run is given the number of steps it may take.
-/

namespace ClosureMachine

namespace Machine

/-- Instructions between two looks at the clock. -/
def clockInterval : Nat := 1024

/-- Step until the machine halts or fails, at most `fuel` times. `expired n` tells whether the
deadline has passed when `n` instructions have been executed. No answer means that the steps did
not suffice. -/
def proceed (code : Code) (expired : Nat → Bool) :
    Nat → Machine → Option (Except MachineError Value) × Machine
  | 0, m => (none, m)
  | fuel + 1, m =>
    if m.stats.instructions % clockInterval == 0 && expired m.stats.instructions then
      (some (.error (.deadlineExceeded m.stats.instructions)), m)
    else
      match m.step code with
      | (.error e, m) => (some (.error e), m)
      | (.ok (.halted v), m) => (some (.ok v), m)
      | (.ok .running, m) => proceed code expired fuel m

def runUntil (m : Machine) (code : Code) (entry : NodeId) (expired : Nat → Bool) (fuel : Nat) :
    Option (Except MachineError Value) × Machine :=
  proceed code expired fuel (m.start entry)

def run (m : Machine) (code : Code) (entry : NodeId) (fuel : Nat) :
    Option (Except MachineError Value) × Machine :=
  m.runUntil code entry (fun _ => false) fuel

/-- Take up to `fuel` single steps and keep what each led to, with the state after it. Stops after
the machine halts or fails. -/
def trace (code : Code) : Nat → Machine → List (Except MachineError Progress × Machine) × Machine
  | 0, m => ([], m)
  | fuel + 1, m =>
    match m.step code with
    | (.ok .running, m) =>
      let (rest, last) := trace code fuel m
      ((.ok .running, m) :: rest, last)
    | (outcome, m) => ([(outcome, m)], m)

end Machine

end ClosureMachine
