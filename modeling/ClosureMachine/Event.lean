/-!
Events that an observer may be shown: a level, a message and named fields, all as text.
-/

namespace ClosureMachine

inductive Level where
  | error
  | warn
  | info
  | debug
  | trace
  deriving DecidableEq, Repr, Inhabited

namespace Level

/-- Zero for the most severe. -/
def rank : Level → Nat
  | error => 0
  | warn => 1
  | info => 2
  | debug => 3
  | trace => 4

def name : Level → String
  | error => "ERROR"
  | warn => "WARN"
  | info => "INFO"
  | debug => "DEBUG"
  | trace => "TRACE"

end Level

structure Event where
  level : Level
  message : String
  fields : List (String × String)
  deriving DecidableEq, Repr

/-- Whether an observer who asked for `threshold` is shown the event. -/
def Event.shownAt (e : Event) (threshold : Level) : Bool := e.level.rank ≤ threshold.rank

end ClosureMachine
