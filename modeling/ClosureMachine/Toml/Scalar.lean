import ClosureMachine.Toml.Item
import ClosureMachine.Word

/-!
Reading scalars of TOML 1.0: the four kinds of strings, integers of 64 bits in four bases, floats,
booleans, dates and times. A reader takes characters from the front and answers with what it read
and what is left.
-/

namespace ClosureMachine.Toml

/-- Take something from the front, if it is there. -/
abbrev Reader (α : Type) := List Char → Option (α × List Char)

def isSpace (c : Char) : Bool := c == ' ' || c == '\t'

def skipSpaces (cs : List Char) : List Char := cs.dropWhile isSpace

/-- Characters that may stand in a comment: tabs, and all but control characters. -/
def isPrintable (c : Char) : Bool := c == '\t' || (0x20 ≤ c.toNat && c.toNat != 0x7F)

/-- A line end: a line feed, with or without a carriage return before it. -/
def newline? : List Char → Option (List Char)
  | '\n' :: cs => some cs
  | '\r' :: '\n' :: cs => some cs
  | _ => none

def word (w : String) : Reader Unit := fun cs =>
  if w.toList.isPrefixOf cs then some ((), cs.drop w.length) else none

/-! ### Strings -/

def hexDigit? (c : Char) : Option Nat :=
  if c.isDigit then some (c.toNat - '0'.toNat)
  else if 'a' ≤ c ∧ c ≤ 'f' then some (c.toNat - 'a'.toNat + 10)
  else if 'A' ≤ c ∧ c ≤ 'F' then some (c.toNat - 'A'.toNat + 10)
  else none

/-- The character with a hexadecimal code; surrogates are none. -/
def codePoint? (digits : List Char) : Option Char := do
  let ns ← digits.mapM hexDigit?
  let n := ns.foldl (fun n d => 16 * n + d) 0
  if n.isValidChar then some (Char.ofNat n) else none

def escape? : Char → Option Char
  | 'b' => some '\x08'
  | 't' => some '\t'
  | 'n' => some '\n'
  | 'f' => some '\x0c'
  | 'r' => some '\r'
  | '"' => some '"'
  | '\\' => some '\\'
  | _ => none

/-- The rest of a string in double quotes, after the characters in `acc`, which are reversed. -/
def basicString (acc : List Char) : Reader (List Char)
  | '"' :: cs => some (acc.reverse, cs)
  | '\\' :: 'u' :: a :: b :: c :: d :: cs => do
    basicString ((← codePoint? [a, b, c, d]) :: acc) cs
  | '\\' :: 'U' :: a :: b :: c :: d :: e :: f :: g :: h :: cs => do
    basicString ((← codePoint? [a, b, c, d, e, f, g, h]) :: acc) cs
  | '\\' :: c :: cs => do basicString ((← escape? c) :: acc) cs
  | c :: cs => if c != '\\' && isPrintable c then basicString (c :: acc) cs else none
  | [] => none

def literalString (acc : List Char) : Reader (List Char)
  | '\'' :: cs => some (acc.reverse, cs)
  | c :: cs => if isPrintable c then literalString (c :: acc) cs else none
  | [] => none

/-- After a backslash at the end of a line: whether the line end is still to come. -/
inductive Fold where
  | none
  | beforeNewline
  | afterNewline
  deriving DecidableEq

/-- The rest of a string in three double quotes. Up to two quotes may stand before the three that
end it. A backslash at the end of a line removes the line end and all blanks and line ends that
follow. -/
def longBasicString (fold : Fold) (acc : List Char) : Reader (List Char)
  | [] => none
  | '\n' :: cs =>
    if fold = .none then longBasicString .none ('\n' :: acc) cs
    else longBasicString .afterNewline acc cs
  | '\r' :: '\n' :: cs =>
    if fold = .none then longBasicString .none ('\n' :: acc) cs
    else longBasicString .afterNewline acc cs
  | c :: cs =>
    if fold ≠ .none ∧ isSpace c then longBasicString fold acc cs
    else if fold = .beforeNewline then none
    else match c, cs with
      | '"', '"' :: '"' :: '"' :: '"' :: cs => some (('"' :: '"' :: acc).reverse, cs)
      | '"', '"' :: '"' :: '"' :: cs => some (('"' :: acc).reverse, cs)
      | '"', '"' :: '"' :: cs => some (acc.reverse, cs)
      | '\\', 'u' :: d :: e :: f :: g :: cs => do
        longBasicString .none ((← codePoint? [d, e, f, g]) :: acc) cs
      | '\\', 'U' :: d :: e :: f :: g :: h :: i :: j :: k :: cs => do
        longBasicString .none ((← codePoint? [d, e, f, g, h, i, j, k]) :: acc) cs
      | '\\', d :: ds =>
        match escape? d with
        | some e => longBasicString .none (e :: acc) ds
        | none => longBasicString .beforeNewline acc (d :: ds)
      | c, cs => if c != '\\' && isPrintable c then longBasicString .none (c :: acc) cs else none

def longLiteralString (acc : List Char) : Reader (List Char)
  | '\'' :: '\'' :: '\'' :: '\'' :: '\'' :: cs => some (('\'' :: '\'' :: acc).reverse, cs)
  | '\'' :: '\'' :: '\'' :: '\'' :: cs => some (('\'' :: acc).reverse, cs)
  | '\'' :: '\'' :: '\'' :: cs => some (acc.reverse, cs)
  | '\r' :: '\n' :: cs => longLiteralString ('\n' :: acc) cs
  | c :: cs =>
    if c == '\n' || isPrintable c then longLiteralString (c :: acc) cs else none
  | [] => none

/-- A string of any kind. A line end right after three opening quotes is dropped. -/
def string : Reader (List Char)
  | '"' :: '"' :: '"' :: cs => longBasicString .none [] ((newline? cs).getD cs)
  | '"' :: cs => basicString [] cs
  | '\'' :: '\'' :: '\'' :: cs => longLiteralString [] ((newline? cs).getD cs)
  | '\'' :: cs => literalString [] cs
  | _ => none

/-! ### Numbers -/

/-- Further digits of a number; an underscore may stand between two digits. -/
def moreDigits (isDigit : Char → Bool) : List Char → List Char × List Char
  | '_' :: c :: cs =>
    if isDigit c then
      let (ds, cs) := moreDigits isDigit cs
      (c :: ds, cs)
    else ([], '_' :: c :: cs)
  | c :: cs =>
    if isDigit c then
      let (ds, cs) := moreDigits isDigit cs
      (c :: ds, cs)
    else ([], c :: cs)
  | [] => ([], [])

def digits (isDigit : Char → Bool) : Reader (List Char)
  | c :: cs =>
    if isDigit c then
      let (ds, cs) := moreDigits isDigit cs
      some (c :: ds, cs)
    else none
  | [] => none

def valueIn (base : Nat) (ds : List Char) : Nat :=
  ds.foldl (fun n d => base * n + (hexDigit? d).getD 0) 0

def sign : List Char → Bool × List Char
  | '-' :: cs => (true, cs)
  | '+' :: cs => (false, cs)
  | cs => (false, cs)

/-- Decimal digits without superfluous zeros in front. -/
def plainDigits : Reader (List Char)
  | '0' :: cs => some (['0'], cs)
  | cs => digits Char.isDigit cs

def inRange (n : Int) : Option Int := (int64? n).map Int64.toInt

def basedInteger (base : Nat) (isDigit : Char → Bool) : Reader Int := fun cs => do
  let (ds, cs) ← digits isDigit cs
  return (← inRange (valueIn base ds), cs)

def integer : Reader Int
  | '0' :: 'x' :: cs => basedInteger 16 (fun c => (hexDigit? c).isSome) cs
  | '0' :: 'o' :: cs => basedInteger 8 (fun c => '0' ≤ c && c ≤ '7') cs
  | '0' :: 'b' :: cs => basedInteger 2 (fun c => c == '0' || c == '1') cs
  | cs => do
    let (negative, cs) := sign cs
    let (ds, cs) ← plainDigits cs
    let n : Int := valueIn 10 ds
    return (← inRange (if negative then -n else n), cs)

def fraction : Reader (List Char)
  | '.' :: cs => digits Char.isDigit cs
  | _ => none

/-- The exponent of a float: whether it is negative, and its digits. -/
def exponent : Reader (Bool × List Char)
  | c :: cs =>
    if c == 'e' || c == 'E' then do
      let (negative, cs) := sign cs
      let (ds, cs) ← digits Char.isDigit cs
      return ((negative, ds), cs)
    else none
  | [] => none

/-- Whether the decimal `ds · 10 ^ exp` is nearer to 2 ^ 1024 than to any double below it. -/
def exceedsDoubles (ds : List Char) (exp : Int) : Bool :=
  let n := valueIn 10 ds
  let places : Int := (Nat.repr n).length + exp
  if n = 0 ∨ places < 300 then false
  else if 320 < places then true
  else Nat.pow 2 1024 - Nat.pow 2 970 ≤ n * Nat.pow 10 exp.toNat / Nat.pow 10 (-exp).toNat

/-- A float: digits with a fraction, an exponent, or both; or one of the special values. A number
too large for any double is refused. -/
def float : Reader String := fun cs => do
  let text (rest : List Char) := String.ofList (cs.take (cs.length - rest.length))
  let (negative, body) := sign cs
  match word "inf" body, word "nan" body with
  | some (_, rest), _ => return (text rest, rest)
  | _, some (_, rest) => return (text rest, rest)
  | none, none =>
    let (whole, afterWhole) ← plainDigits body
    let (frac, afterFrac) ← match fraction afterWhole with
      | some (ds, rest) => some (ds, rest)
      | none => if (exponent afterWhole).isSome then some ([], afterWhole) else none
    let ((expNegative, expDigits), rest) := (exponent afterFrac).getD ((false, []), afterFrac)
    let magnitude : Int := valueIn 10 expDigits
    let exp := (if expNegative then -magnitude else magnitude) - frac.length
    if !negative && exceedsDoubles (whole ++ frac) exp then none
    else return (text rest, rest)

/-! ### Dates and times -/

/-- A number of exactly `n` decimal digits between two bounds. -/
def fixedNumber (n low high : Nat) : Reader Nat := fun cs =>
  let ds := cs.take n
  let v := valueIn 10 ds
  if ds.length = n ∧ ds.all Char.isDigit ∧ low ≤ v ∧ v ≤ high then some (v, cs.drop n) else none

def character (c : Char) : Reader Unit
  | d :: cs => if c = d then some ((), cs) else none
  | [] => none

def daysIn (year month : Nat) : Nat :=
  if month = 2 then
    if year % 4 = 0 ∧ (year % 100 ≠ 0 ∨ year % 400 = 0) then 29 else 28
  else if month = 4 ∨ month = 6 ∨ month = 9 ∨ month = 11 then 30
  else 31

def date : Reader Unit := fun cs => do
  let (year, cs) ← fixedNumber 4 0 9999 cs
  let (_, cs) ← character '-' cs
  let (month, cs) ← fixedNumber 2 1 12 cs
  let (_, cs) ← character '-' cs
  let (_, cs) ← fixedNumber 2 1 (daysIn year month) cs
  return ((), cs)

def time : Reader Unit := fun cs => do
  let (_, cs) ← fixedNumber 2 0 23 cs
  let (_, cs) ← character ':' cs
  let (_, cs) ← fixedNumber 2 0 59 cs
  let (_, cs) ← character ':' cs
  let (_, cs) ← fixedNumber 2 0 60 cs
  match cs with
  | '.' :: rest =>
    let ds := rest.takeWhile Char.isDigit
    return ((), if ds.isEmpty then cs else rest.drop ds.length)
  | _ => return ((), cs)

def offset : Reader Unit
  | 'Z' :: cs => some ((), cs)
  | 'z' :: cs => some ((), cs)
  | c :: cs =>
    if c == '+' || c == '-' then do
      let (_, cs) ← fixedNumber 2 0 23 cs
      let (_, cs) ← character ':' cs
      let (_, cs) ← fixedNumber 2 0 59 cs
      return ((), cs)
    else none
  | [] => none

def timeOfDate : List Char → Option (List Char)
  | c :: cs =>
    if c == 'T' || c == 't' || c == ' ' then
      match time cs with
      | some (_, cs) =>
        match offset cs with
        | some (_, cs) => some cs
        | none => some cs
      | none => none
    else none
  | [] => none

/-- A date with or without a time, or a time alone. -/
def dateTime : Reader String := fun cs =>
  let text (rest : List Char) := String.ofList (cs.take (cs.length - rest.length))
  match date cs with
  | some (_, rest) =>
    let rest := (timeOfDate rest).getD rest
    some (text rest, rest)
  | none => (time cs).map fun (_, rest) => (text rest, rest)

def scalar : Reader Scalar := fun cs =>
  match cs with
  | '"' :: _ => (string cs).map fun (s, cs) => (.string (String.ofList s), cs)
  | '\'' :: _ => (string cs).map fun (s, cs) => (.string (String.ofList s), cs)
  | 't' :: _ => (word "true" cs).map fun (_, cs) => (.boolean true, cs)
  | 'f' :: _ => (word "false" cs).map fun (_, cs) => (.boolean false, cs)
  | _ =>
    match dateTime cs with
    | some (s, cs) => some (.dateTime s, cs)
    | none =>
      match float cs with
      | some (s, cs) => some (.float s, cs)
      | none => (integer cs).map fun (n, cs) => (.integer n, cs)

end ClosureMachine.Toml
