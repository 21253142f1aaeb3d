import ClosureMachine.Toml.Scalar

/-!
Statements, the lines that a TOML document consists of: headers of tables, headers of elements, and
keys with their items. Arrays and inline tables nest up to a fixed depth. Items are read with fuel,
for which the length of the text is always enough.
-/

namespace ClosureMachine.Toml

structure KeyPath where
  path : List String
  key : String
  deriving DecidableEq, Repr

def KeyPath.toList (k : KeyPath) : List String := k.path ++ [k.key]

inductive Statement where
  /-- Written `[a.b]`. -/
  | table (name : KeyPath)
  /-- Written `[[a.b]]`. -/
  | element (name : KeyPath)
  | entry (name : KeyPath) (item : Item)

/-- How deep arrays and inline tables may nest, and how many names a dotted key may have. -/
def nestingLimit : Nat := 79

/-! ### Keys -/

def isBareKey (c : Char) : Bool :=
  ('a' ≤ c && c ≤ 'z') || ('A' ≤ c && c ≤ 'Z') || c.isDigit || c == '-' || c == '_'

def simpleKey : Reader String
  | '"' :: cs => (basicString [] cs).map fun (s, cs) => (String.ofList s, cs)
  | '\'' :: cs => (literalString [] cs).map fun (s, cs) => (String.ofList s, cs)
  | cs =>
    let name := cs.takeWhile isBareKey
    if name.isEmpty then none else some (String.ofList name, cs.drop name.length)

/-- At most `room` names with points between them; blanks may surround each name. -/
def keyOfLength : Nat → Reader KeyPath
  | 0, _ => none
  | room + 1, cs => do
    let (name, cs) ← simpleKey (skipSpaces cs)
    match skipSpaces cs with
    | '.' :: cs =>
      let (k, cs) ← keyOfLength room cs
      return ({ k with path := name :: k.path }, cs)
    | cs => return (⟨[], name⟩, cs)

def dottedKey : Reader KeyPath := keyOfLength nestingLimit

def keyEquals (cs : List Char) : Option (KeyPath × List Char) := do
  let (k, cs) ← dottedKey cs
  let (_, cs) ← character '=' cs
  return (k, skipSpaces cs)

/-! ### Items -/

def skipLines (inComment : Bool) : List Char → Option (List Char)
  | [] => some []
  | '\n' :: cs => skipLines false cs
  | '\r' :: '\n' :: cs => skipLines false cs
  | c :: cs =>
    if inComment then if isPrintable c then skipLines true cs else none
    else if isSpace c then skipLines false cs
    else if c == '#' then skipLines true cs
    else some (c :: cs)

mutual

def item : Nat → Nat → Reader Item
  | 0, _, _ => none
  | _ + 1, 0, '[' :: _ => none
  | _ + 1, 0, '{' :: _ => none
  | fuel + 1, room + 1, '[' :: cs => do arrayItems fuel room [] (← skipLines false cs)
  | fuel + 1, room + 1, '{' :: cs =>
    match skipSpaces cs with
    | '}' :: cs => some (.inline [], cs)
    | cs => inlineEntries fuel room [] cs
  | _ + 1, _, cs => (scalar cs).map fun (s, cs) => (.scalar s, cs)

/-- The rest of an array after the items in `acc`, which are reversed; each of the others nests at
most `room` deep. -/
def arrayItems : Nat → Nat → List Item → Reader Item
  | 0, _, _, _ => none
  | _ + 1, _, acc, ']' :: cs => some (.array acc.reverse, cs)
  | fuel + 1, room, acc, cs => do
    let (i, cs) ← item fuel room cs
    match ← skipLines false cs with
    | ',' :: cs => arrayItems fuel room (i :: acc) (← skipLines false cs)
    | ']' :: cs => return (.array (i :: acc).reverse, cs)
    | _ => none

/-- The rest of an inline table that holds `t` so far, whose other items nest at most `room` deep.
No comma stands before the brace. -/
def inlineEntries : Nat → Nat → Table → Reader Item
  | 0, _, _, _ => none
  | fuel + 1, room, t, cs => do
    let (k, cs) ← keyEquals cs
    let (i, cs) ← item fuel room cs
    let t ← t.insert k.path k.key i
    match skipSpaces cs with
    | ',' :: cs => inlineEntries fuel room t cs
    | '}' :: cs => return (.inline t, cs)
    | _ => none

end

/-! ### Statements -/

/-- The end of a line: blanks, perhaps a comment, and a line end or the end of the text. -/
def endOfLine (cs : List Char) : Option (List Char) :=
  let rest := match skipSpaces cs with
    | '#' :: cs => cs.dropWhile isPrintable
    | cs => cs
  if rest.isEmpty then some [] else newline? rest

def statement : Reader Statement
  | '[' :: '[' :: cs => do
    let (k, cs) ← dottedKey cs
    let (_, cs) ← character ']' cs
    let (_, cs) ← character ']' cs
    return (.element k, ← endOfLine cs)
  | '[' :: cs => do
    let (k, cs) ← dottedKey cs
    let (_, cs) ← character ']' cs
    return (.table k, ← endOfLine cs)
  | cs => do
    let (k, cs) ← keyEquals cs
    let (i, cs) ← item (cs.length + 1) nestingLimit cs
    return (.entry k i, ← endOfLine cs)

/-- All statements of a text of at most `fuel` lines; a line may be empty or hold only a comment. -/
def statements : Nat → List Char → Option (List Statement)
  | 0, _ => none
  | fuel + 1, cs =>
    match skipSpaces cs with
    | [] => some []
    | cs =>
      match endOfLine cs with
      | some rest => statements fuel rest
      | none => do
        let (s, rest) ← statement cs
        return s :: (← statements fuel rest)

end ClosureMachine.Toml
