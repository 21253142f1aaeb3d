import ClosureMachine.Symbol

/-!
The keywords that head special forms or stand in syntax patterns, and the cache of their ids in
one symbol table. A form is recognised by comparing ids, never spellings.
-/

namespace ClosureMachine

inductive Keyword where
  | quote
  | lambda
  | conditional
  | assign
  | callCc
  | define
  | sequence
  | defineSyntax
  | ellipsis
  | underscore
  | invoke
  deriving DecidableEq, Repr, Inhabited

namespace Keyword

/-- Every keyword, in the order in which a table interns them. -/
def all : List Keyword :=
  [quote, lambda, conditional, assign, callCc, define, sequence, defineSyntax, ellipsis,
    underscore, invoke]

def spelling : Keyword → String
  | quote => "quote"
  | lambda => "lambda"
  | conditional => "if"
  | assign => "set!"
  | callCc => "call/cc"
  | define => "define"
  | sequence => "begin"
  | defineSyntax => "define-syntax"
  | ellipsis => "..."
  | underscore => "_"
  | invoke => "p/invoke"

/-- Keywords that head a form; the other two occur only inside syntax patterns. -/
def isSpecialForm : Keyword → Bool
  | ellipsis | underscore => false
  | _ => true

/-- Position in `all`. -/
def index (k : Keyword) : Nat := all.idxOf k

def ofSpelling? (s : String) : Option Keyword := all.find? (·.spelling == s)

theorem mem_all (k : Keyword) : k ∈ all := by cases k <;> decide

theorem nodup_all : all.Nodup := by decide

end Keyword

/-- Ids of all keywords in one symbol table, in the order of `Keyword.all`. -/
structure Keywords where
  ids : List SymbolId
  deriving DecidableEq, Repr, Inhabited

namespace Keywords

/-- Intern every keyword; spellings already present keep their ids. -/
def intern (t : SymbolTable) : Keywords × SymbolTable :=
  let (ids, t) := t.internAll (Keyword.all.map Keyword.spelling)
  (⟨ids⟩, t)

def classify (ks : Keywords) (id : SymbolId) : Option Keyword :=
  (ks.ids.zip Keyword.all).lookup id

def isKeyword (ks : Keywords) (id : SymbolId) : Bool := (ks.classify id).isSome

def idOf? (ks : Keywords) (k : Keyword) : Option SymbolId := ks.ids[k.index]?

end Keywords

end ClosureMachine
