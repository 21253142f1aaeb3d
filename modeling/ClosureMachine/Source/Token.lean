/-!
Tokens of source text: the two parentheses, the quote character, and words, which are the maximal
runs of other characters between blanks.
-/

namespace ClosureMachine

/-- The characters with the Unicode property `White_Space`. -/
def isBlank (c : Char) : Bool :=
  let n := c.toNat
  (0x9 ≤ n && n ≤ 0xD) || n == 0x20 || n == 0x85 || n == 0xA0 || n == 0x1680 ||
    (0x2000 ≤ n && n ≤ 0x200A) || n == 0x2028 || n == 0x2029 || n == 0x202F || n == 0x205F ||
    n == 0x3000

inductive Token where
  | opening
  | closing
  | quote
  | word (chars : List Char)
  deriving DecidableEq, Repr

namespace Token

/-- The word whose characters were met in reverse, unless there were none. -/
def flush : List Char → List Token
  | [] => []
  | cs => [word cs.reverse]

/-- The tokens of a text, where `cur` holds the characters of the word begun, in reverse. -/
def scan (cur : List Char) : List Char → List Token
  | [] => flush cur
  | '(' :: cs => flush cur ++ opening :: scan [] cs
  | ')' :: cs => flush cur ++ closing :: scan [] cs
  | '\'' :: cs => flush cur ++ quote :: scan [] cs
  | c :: cs => if isBlank c then flush cur ++ scan [] cs else scan (c :: cur) cs

def ofText (s : String) : List Token := scan [] s.toList

end Token

end ClosureMachine
