import ClosureMachine.Code.Basic

/-!
The listing of a code: one line per instruction, headed by its position, which is padded with zeros
to the width of the largest.
-/

namespace ClosureMachine

def padded (width n : Nat) : String :=
  let s := Nat.repr n
  String.ofList (List.replicate (width - s.length) '0') ++ s

namespace Code

/-- A spelling, or a question mark for a symbol without one. -/
def listedSymbol (symbols : SymbolTable) (id : SymbolId) : String :=
  (symbols.name? id).getD "?"

def listedValue (symbols : SymbolTable) : Value → String
  | .symbol id => "'" ++ listedSymbol symbols id
  | v => v.text

def listedNode (c : Code) (symbols : SymbolTable) : Node → String
  | .halt => "(halt)"
  | .refer var next => s!"(refer {listedSymbol symbols var} {nodeLabel next})"
  | .constant value next => s!"(constant {listedValue symbols value} {nodeLabel next})"
  | .close f body next =>
    let names := " ".intercalate (((c.formals? f).getD []).map (listedSymbol symbols))
    s!"(close ({names}) {nodeLabel body} {nodeLabel next})"
  | .test onTrue onFalse => s!"(test {nodeLabel onTrue} {nodeLabel onFalse})"
  | .assign var next => s!"(assign {listedSymbol symbols var} {nodeLabel next})"
  | .conti next => s!"(conti {nodeLabel next})"
  | .nuate stack var =>
    let name := (var.map (listedSymbol symbols)).getD "#f"
    match stack with
    | some r => s!"(nuate {name} #:frame {r.addr.offset})"
    | none => s!"(nuate {name} #:frame ())"
  | .frame returnTo next => s!"(frame {nodeLabel next} {nodeLabel returnTo})"
  | .argument next => s!"(argument {nodeLabel next})"
  | .apply => "(apply)"
  | .ret => "(return)"

/-- Digits in the largest position. -/
def listingWidth (c : Code) : Nat := (Nat.repr (c.size - 1)).length

def listedLine (c : Code) (symbols : SymbolTable) (id : NodeId) (n : Node) : String :=
  s!"  [{padded c.listingWidth id}] {c.listedNode symbols n}"

/-- One line per instruction, each ended by a line feed. -/
def listing (c : Code) (symbols : SymbolTable) : String :=
  String.join (c.toList.map fun (id, n) => c.listedLine symbols id n ++ "\n")

end Code

end ClosureMachine
