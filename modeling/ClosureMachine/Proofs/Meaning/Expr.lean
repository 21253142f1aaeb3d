import ClosureMachine.Keyword
import ClosureMachine.Source.Form

/-!
Expressions: what forms mean, apart from how they are written. `Expr.ofForm?` reads a form; a form
that has no meaning has no expression. Surplus items of a special form are not looked at, a
one-armed conditional has the unspecified value for its other branch, and a quoted list is empty.
-/

namespace ClosureMachine

/-- Constants of the language. -/
inductive Datum where
  | nil
  | bool (b : Bool)
  | int (n : Int64)
  | symbol (name : String)
  | unspecified
  deriving DecidableEq, Repr

inductive Expr where
  | literal (d : Datum)
  | variable (name : String)
  | lambda (params : List String) (body : List Expr)
  | conditional (condition yes no : Expr)
  | assign (name : String) (e : Expr)
  | define (name : String) (e : Expr)
  | sequence (es : List Expr)
  | callCc (e : Expr)
  | call (operator : Expr) (args : List Expr)

/-- The keyword that a form spells, if it is one. -/
def Form.keyword? : Form → Option Keyword
  | .atom name => Keyword.ofSpelling? name
  | _ => none

/-- Names, if all forms are names. -/
def Form.names? : List Form → Option (List String)
  | [] => some []
  | .atom name :: rest => do
    let names ← names? rest
    return name :: names
  | _ :: _ => none

/-- The constant that a quoted form stands for. -/
def Datum.ofForm : Form → Datum
  | .int n => .int n
  | .atom name => .symbol name
  | .list _ => .nil

namespace Expr

/-- A name, or one of the two truth values. -/
def ofAtom (name : String) : Expr :=
  if name = "#t" then .literal (.bool true)
  else if name = "#f" then .literal (.bool false)
  else .variable name

mutual

/-- The expression that a form stands for. -/
def ofForm? : Form → Option Expr
  | .int n => some (.literal (.int n))
  | .atom name => some (ofAtom name)
  | .list items => ofItems? items

def ofItems? : List Form → Option Expr
  | [] => some (.literal .nil)
  | head :: items =>
    match head.keyword? with
    | some .quote => items.head?.map fun datum => .literal (.ofForm datum)
    | some .lambda => ofAbstraction? items
    | some .conditional => ofConditional? items
    | some .assign => ofAssignment? .assign items
    | some .define => ofAssignment? .define items
    | some .sequence => do
      let es ← ofForms? items
      return .sequence es
    | some .callCc => do
      let e ← ofFirst? items
      return .callCc e
    | _ => do
      let operator ← ofForm? head
      let args ← ofForms? items
      return .call operator args

def ofAbstraction? : List Form → Option Expr
  | .list params :: body => do
    let names ← Form.names? params
    let es ← ofForms? body
    return .lambda names es
  | _ => none

def ofConditional? : List Form → Option Expr
  | condition :: yes :: more => do
    let onTrue ← ofForm? yes
    let onFalse ← ofAlternative? more
    let test ← ofForm? condition
    return .conditional test onTrue onFalse
  | _ => none

def ofAssignment? (make : String → Expr → Expr) : List Form → Option Expr
  | .atom name :: more => do
    let e ← ofFirst? more
    return make name e
  | _ => none

def ofForms? : List Form → Option (List Expr)
  | [] => some []
  | f :: rest => do
    let es ← ofForms? rest
    let e ← ofForm? f
    return e :: es

def ofFirst? : List Form → Option Expr
  | f :: _ => ofForm? f
  | [] => none

def ofAlternative? : List Form → Option Expr
  | f :: _ => ofForm? f
  | [] => some (.literal .unspecified)

end

mutual

/-- Names that a definition in the expression makes global. -/
def defined : Expr → List String
  | .literal _ | .variable _ => []
  | .lambda _ body => definedAll body
  | .conditional condition yes no => defined yes ++ defined no ++ defined condition
  | .assign _ e => defined e
  | .define name e => name :: defined e
  | .sequence es => definedAll es
  | .callCc e => defined e
  | .call operator args => defined operator ++ definedAll args

def definedAll : List Expr → List String
  | [] => []
  | e :: es => definedAll es ++ defined e

end

mutual

/-- The parameters of every procedure are distinct, and no procedure and no sequence is empty. -/
def isProper : Expr → Bool
  | .literal _ | .variable _ => true
  | .lambda params body => params.Nodup && !body.isEmpty && areProper body
  | .conditional condition yes no => isProper condition && isProper yes && isProper no
  | .assign _ e | .define _ e | .callCc e => isProper e
  | .sequence es => !es.isEmpty && areProper es
  | .call operator args => isProper operator && areProper args

def areProper : List Expr → Bool
  | [] => true
  | e :: es => isProper e && areProper es

end

end Expr

end ClosureMachine
