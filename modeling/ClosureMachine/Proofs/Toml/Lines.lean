import Mathlib.Data.List.Basic
import ClosureMachine.Toml.Document

/-!
Reading plain lines. A `Line` is empty, the header of a table with a bare name, or a bare name that
is set to a natural number. A decimal numeral that stands at the end of a line is read as that
number and as nothing else: it is no date, no time and no float (`scalar_decimal`). So a text of
plain lines is read as the statements that its lines are (`statements_lines`), and these fill one
table after the other (`apply_header`, `apply_entry`).
-/

namespace ClosureMachine.Toml

/-- A character of a class is none that is outside of it. -/
theorem ne_of_class {p : Char → Bool} {c d : Char} (hd : p d = true) (hc : p c = false) :
    d ≠ c := by
  rintro rfl
  rw [hd] at hc
  cases hc

/-! ## Numerals at the end of a line -/

section Numerals

variable {ds rest : List Char}

theorem head_of_numeral (hne : ds ≠ []) (hd : ∀ d ∈ ds, d.isDigit = true) {c : Char}
    {cs : List Char} (h : ds ++ '\n' :: rest = c :: cs) : c.isDigit = true := by
  cases ds with
  | nil => exact absurd rfl hne
  | cons d ds =>
    obtain ⟨rfl, -⟩ := List.cons.inj h
    exact hd d List.mem_cons_self

/-- Behind the first digit of a numeral come further digits or the line end. -/
theorem second_of_numeral (hd : ∀ d ∈ ds, d.isDigit = true) {a b : Char} {cs : List Char}
    (h : ds ++ '\n' :: rest = a :: b :: cs) (ha : a ≠ '\n') : b.isDigit = true ∨ b = '\n' := by
  cases ds with
  | nil => exact absurd (List.cons.inj h).1.symm ha
  | cons d ds =>
    cases ds with
    | nil => exact .inr (List.cons.inj (List.cons.inj h).2).1.symm
    | cons e ds =>
      obtain ⟨rfl, -⟩ := List.cons.inj (List.cons.inj h).2
      exact .inl (hd e (by simp))

theorem sign_numeral (hne : ds ≠ []) (hd : ∀ d ∈ ds, d.isDigit = true) :
    sign (ds ++ '\n' :: rest) = (false, ds ++ '\n' :: rest) := by
  unfold sign
  split
  · next heq => exact absurd (head_of_numeral hne hd heq) (by decide)
  · next heq => exact absurd (head_of_numeral hne hd heq) (by decide)
  · rfl

theorem word_numeral (hne : ds ≠ []) (hd : ∀ d ∈ ds, d.isDigit = true) {w : String} {c : Char}
    {cs : List Char} (hw : w.toList = c :: cs) (hc : c.isDigit = false) :
    word w (ds ++ '\n' :: rest) = none := by
  cases ds with
  | nil => exact absurd rfl hne
  | cons d ds =>
    have hcd : c ≠ d := (ne_of_class (hd d List.mem_cons_self) hc).symm
    simp [word, hw, hcd]

theorem moreDigits_numeral (hd : ∀ d ∈ ds, d.isDigit = true) :
    moreDigits Char.isDigit (ds ++ '\n' :: rest) = (ds, '\n' :: rest) := by
  induction ds with
  | nil => simp [moreDigits]
  | cons d ds ih =>
    have hdigit := hd d List.mem_cons_self
    have hne : d ≠ '_' := ne_of_class hdigit rfl
    rw [List.cons_append, moreDigits.eq_2 _ _ _ fun _ _ he _ => hne he, if_pos hdigit,
      ih fun e he => hd e (List.mem_cons_of_mem d he)]

theorem digits_numeral (hne : ds ≠ []) (hd : ∀ d ∈ ds, d.isDigit = true) :
    digits Char.isDigit (ds ++ '\n' :: rest) = some (ds, '\n' :: rest) := by
  cases ds with
  | nil => exact absurd rfl hne
  | cons d ds =>
    rw [List.cons_append, digits, if_pos (hd d List.mem_cons_self),
      moreDigits_numeral fun e he => hd e (List.mem_cons_of_mem d he)]

/-- What is left of a numeral after a number of fixed width is a numeral. -/
theorem fixedNumber_numeral (hd : ∀ d ∈ ds, d.isDigit = true) {k low high v : Nat}
    {cs : List Char} (h : fixedNumber k low high (ds ++ '\n' :: rest) = some (v, cs)) :
    ∃ es, (∀ e ∈ es, e.isDigit = true) ∧ cs = es ++ '\n' :: rest := by
  rw [fixedNumber] at h
  split at h
  · next hall =>
    obtain ⟨hlen, hdigits, -⟩ := hall
    have hk : k ≤ ds.length := by
      refine Nat.le_of_not_lt fun hlt => ?_
      obtain ⟨j, rfl⟩ := Nat.exists_eq_add_of_lt hlt
      have hmem : '\n' ∈ (ds ++ '\n' :: rest).take (ds.length + j + 1) := by
        simp [List.take_append, Nat.add_assoc]
      exact absurd (List.all_eq_true.mp hdigits _ hmem) (by decide)
    cases h
    refine ⟨ds.drop k, fun e he => hd e (List.mem_of_mem_drop he), ?_⟩
    rw [List.drop_append_of_le_length hk]
  · cases h

theorem character_numeral (hd : ∀ d ∈ ds, d.isDigit = true) {c : Char} (hc : c.isDigit = false)
    (hne : c ≠ '\n') : character c (ds ++ '\n' :: rest) = none := by
  cases ds with
  | nil => simp [character, hne]
  | cons d ds =>
    have hcd : c ≠ d := (ne_of_class (hd d List.mem_cons_self) hc).symm
    simp [character, hcd]

theorem date_numeral (hd : ∀ d ∈ ds, d.isDigit = true) : date (ds ++ '\n' :: rest) = none := by
  rw [date]
  cases h : fixedNumber 4 0 9999 (ds ++ '\n' :: rest) with
  | none => rfl
  | some r =>
    obtain ⟨es, he, hr⟩ := fixedNumber_numeral hd h
    simp [hr, character_numeral he]

theorem time_numeral (hd : ∀ d ∈ ds, d.isDigit = true) : time (ds ++ '\n' :: rest) = none := by
  rw [time]
  cases h : fixedNumber 2 0 23 (ds ++ '\n' :: rest) with
  | none => rfl
  | some r =>
    obtain ⟨es, he, hr⟩ := fixedNumber_numeral hd h
    simp [hr, character_numeral he]

theorem dateTime_numeral (hd : ∀ d ∈ ds, d.isDigit = true) :
    dateTime (ds ++ '\n' :: rest) = none := by
  simp [dateTime, date_numeral hd, time_numeral hd]

end Numerals

/-! ## Decimal numbers -/

section Decimal

variable (n : Nat) (rest : List Char)

theorem isDigit_decimal : ∀ d ∈ Nat.toDigits 10 n, d.isDigit = true :=
  fun _ hd => Nat.isDigit_of_mem_toDigits (by decide) (by decide) hd

theorem head_decimal_ne_zero {n : Nat} (h : 0 < n) : (Nat.toDigits 10 n).head? ≠ some '0' := by
  induction n using Nat.strongRecOn with
  | ind n ih =>
    rcases Nat.lt_or_ge n 10 with hlt | hge
    · have hdigit : ∀ k < 10, 0 < k → k.digitChar ≠ '0' := by decide
      simpa [Nat.toDigits_of_lt_base hlt] using hdigit n hlt h
    · have hfront := ih (n / 10) (by omega) (by omega)
      rw [Nat.toDigits_of_base_le (by decide) hge, List.head?_append]
      cases hd : (Nat.toDigits 10 (n / 10)).head? with
      | none => exact absurd (List.head?_eq_none_iff.mp hd) Nat.toDigits_ne_nil
      | some d => rwa [hd] at hfront

theorem plainDigits_decimal :
    plainDigits (Nat.toDigits 10 n ++ '\n' :: rest) = some (Nat.toDigits 10 n, '\n' :: rest) := by
  rcases Nat.eq_zero_or_pos n with rfl | hpos
  · rw [Nat.toDigits_zero]
    rfl
  · have hhead := head_decimal_ne_zero hpos
    have hdigits : digits Char.isDigit (Nat.toDigits 10 n ++ '\n' :: rest) =
        some (Nat.toDigits 10 n, '\n' :: rest) :=
      digits_numeral Nat.toDigits_ne_nil (isDigit_decimal n)
    cases hds : Nat.toDigits 10 n with
    | nil => exact absurd hds Nat.toDigits_ne_nil
    | cons d ds =>
      rw [hds] at hhead hdigits
      have hzero : ∀ cs, d :: (ds ++ '\n' :: rest) ≠ '0' :: cs := by
        intro cs heq
        exact hhead (by rw [(List.cons.inj heq).1]; rfl)
      rw [List.cons_append, plainDigits.eq_2 _ hzero]
      exact hdigits

theorem valueIn_of_digits {ds : List Char} (hd : ∀ d ∈ ds, d.isDigit = true) :
    valueIn 10 ds = Nat.ofDigitChars 10 ds 0 := by
  rw [valueIn, Nat.ofDigitChars_eq_foldl]
  refine List.foldl_ext _ _ _ fun n d hmem => ?_
  rw [hexDigit?, if_pos (hd d hmem), Option.getD_some]

theorem valueIn_decimal : valueIn 10 (Nat.toDigits 10 n) = n := by
  rw [valueIn_of_digits (isDigit_decimal n), Nat.ofDigitChars_ten_toDigits]

theorem inRange_of_le {n : Nat} (h : (n : Int) ≤ Int64.maxValue.toInt) :
    inRange n = some (n : Int) := by
  have hmin : Int64.minValue.toInt ≤ (n : Int) := Int.le_trans (by decide) (Int.natCast_nonneg n)
  have hlt : (n : Int) < 9223372036854775808 := Int.lt_of_le_of_lt h (by decide)
  rw [inRange, int64?, if_pos ⟨hmin, h⟩, Option.map_some, Int64.toInt_ofInt_of_le hmin hlt]

theorem integer_decimal (h : (n : Int) ≤ Int64.maxValue.toInt) :
    integer (Nat.toDigits 10 n ++ '\n' :: rest) = some ((n : Int), '\n' :: rest) := by
  have hbase : ∀ {c : Char} {cs : List Char}, Nat.toDigits 10 n ++ '\n' :: rest = '0' :: c :: cs →
      c.isDigit = true ∨ c = '\n' :=
    fun heq => second_of_numeral (isDigit_decimal n) heq (by decide)
  unfold integer
  split
  · next heq => exact absurd (hbase heq) (by decide)
  · next heq => exact absurd (hbase heq) (by decide)
  · next heq => exact absurd (hbase heq) (by decide)
  · simp [sign_numeral Nat.toDigits_ne_nil (isDigit_decimal n), plainDigits_decimal,
      valueIn_decimal, inRange_of_le h]

/-- Without a fraction and an exponent there is no float. -/
theorem float_decimal : float (Nat.toDigits 10 n ++ '\n' :: rest) = none := by
  have hne : Nat.toDigits 10 n ≠ [] := Nat.toDigits_ne_nil
  have hinf : word "inf" (Nat.toDigits 10 n ++ '\n' :: rest) = none :=
    word_numeral hne (isDigit_decimal n) rfl rfl
  have hnan : word "nan" (Nat.toDigits 10 n ++ '\n' :: rest) = none :=
    word_numeral hne (isDigit_decimal n) rfl rfl
  simp [float, sign_numeral hne (isDigit_decimal n), hinf, hnan, plainDigits_decimal, fraction,
    exponent]

/-- A numeral at the end of a line is a number. -/
theorem scalar_decimal (h : (n : Int) ≤ Int64.maxValue.toInt) :
    scalar (Nat.toDigits 10 n ++ '\n' :: rest) = some (.integer n, '\n' :: rest) := by
  have hhead : ∀ {c : Char} {cs : List Char}, Nat.toDigits 10 n ++ '\n' :: rest = c :: cs →
      c.isDigit = true := head_of_numeral Nat.toDigits_ne_nil (isDigit_decimal n)
  unfold scalar
  split
  · next heq => exact absurd (hhead heq) (by decide)
  · next heq => exact absurd (hhead heq) (by decide)
  · next heq => exact absurd (hhead heq) (by decide)
  · next heq => exact absurd (hhead heq) (by decide)
  · simp [dateTime_numeral (isDigit_decimal n), float_decimal, integer_decimal n rest h]

theorem item_decimal (fuel room : Nat) (h : (n : Int) ≤ Int64.maxValue.toInt) :
    item (fuel + 1) room (Nat.toDigits 10 n ++ '\n' :: rest) =
      some (.scalar (.integer n), '\n' :: rest) := by
  have hhead : ∀ {c : Char} {cs : List Char}, Nat.toDigits 10 n ++ '\n' :: rest = c :: cs →
      c.isDigit = true := head_of_numeral Nat.toDigits_ne_nil (isDigit_decimal n)
  have hopen : ∀ cs, Nat.toDigits 10 n ++ '\n' :: rest ≠ '[' :: cs :=
    fun _ heq => absurd (hhead heq) (by decide)
  have hbrace : ∀ cs, Nat.toDigits 10 n ++ '\n' :: rest ≠ '{' :: cs :=
    fun _ heq => absurd (hhead heq) (by decide)
  rw [item.eq_6 _ _ _ (fun cs _ => hopen cs) (fun cs _ => hbrace cs) (fun _ cs _ => hopen cs)
    (fun _ cs _ => hbrace cs), scalar_decimal n rest h, Option.map_some]

end Decimal

/-! ## Keys -/

/-- A name that needs no quotes. -/
def IsBare (name : String) : Prop := name ≠ "" ∧ ∀ c ∈ name.toList, isBareKey c = true

instance (name : String) : Decidable (IsBare name) :=
  decidable_of_iff (name ≠ "" ∧ name.toList.all isBareKey = true) (by simp [IsBare])

section Keys

variable {name : String} {c : Char} {rest : List Char}

/-- A bare name begins with a character that has no other meaning. -/
theorem IsBare.head (h : IsBare name) : ∃ d ds, name.toList = d :: ds ∧ isBareKey d = true := by
  cases hname : name.toList with
  | nil => exact absurd (String.toList_eq_nil_iff.mp hname) h.1
  | cons d ds => exact ⟨d, ds, rfl, h.2 d (by simp [hname])⟩

theorem IsBare.append_ne (h : IsBare name) (hc : isBareKey c = false) (cs : List Char) :
    name.toList ++ rest ≠ c :: cs := by
  obtain ⟨d, ds, hname, hd⟩ := h.head
  intro heq
  rw [hname] at heq
  exact ne_of_class hd hc (List.cons.inj heq).1

theorem isSpace_of_isBareKey {d : Char} (hd : isBareKey d = true) : isSpace d = false := by
  have hblank : d ≠ ' ' := ne_of_class hd (by decide)
  have htab : d ≠ '\t' := ne_of_class hd (by decide)
  simp [isSpace, hblank, htab]

theorem simpleKey_bare (h : IsBare name) (hc : isBareKey c = false) :
    simpleKey (name.toList ++ c :: rest) = some (name, c :: rest) := by
  have htake : (name.toList ++ c :: rest).takeWhile isBareKey = name.toList := by
    rw [List.takeWhile_append_of_pos h.2]
    simp [hc]
  have hquote : ∀ cs, name.toList ++ c :: rest ≠ '"' :: cs := h.append_ne (by decide)
  have hapostrophe : ∀ cs, name.toList ++ c :: rest ≠ '\'' :: cs := h.append_ne (by decide)
  rw [simpleKey.eq_3 _ hquote hapostrophe, htake]
  simp [h.1]

theorem skipSpaces_bare (h : IsBare name) (cs : List Char) :
    skipSpaces (name.toList ++ cs) = name.toList ++ cs := by
  obtain ⟨d, ds, hname, hd⟩ := h.head
  simp [skipSpaces, hname, isSpace_of_isBareKey hd]

theorem keyOfLength_bare (h : IsBare name) (hc : isBareKey c = false) {d : Char} {cs : List Char}
    (hskip : skipSpaces (c :: rest) = d :: cs) (hd : d ≠ '.') (room : Nat) :
    keyOfLength (room + 1) (name.toList ++ c :: rest) = some (⟨[], name⟩, d :: cs) := by
  rw [keyOfLength]
  simp [skipSpaces_bare h, simpleKey_bare h hc, hskip, hd]

/-- A bare key ends before the first character that is neither part of it nor a blank. -/
theorem dottedKey_bare (h : IsBare name) (hc : isBareKey c = false) {d : Char} {cs : List Char}
    (hskip : skipSpaces (c :: rest) = d :: cs) (hd : d ≠ '.') :
    dottedKey (name.toList ++ c :: rest) = some (⟨[], name⟩, d :: cs) :=
  keyOfLength_bare h hc hskip hd 78

end Keys

/-! ## Lines -/

inductive Line where
  | blank
  | header (name : String)
  | number (name : String) (n : Nat)

namespace Line

/-- The line as it is written, with its line end. -/
def chars : Line → List Char
  | blank => ['\n']
  | header name => '[' :: (name.toList ++ [']', '\n'])
  | number name n => name.toList ++ ([' ', '=', ' '] ++ (Nat.toDigits 10 n ++ ['\n']))

/-- The statement that the line is. -/
def statement? : Line → Option Statement
  | blank => none
  | header name => some (.table ⟨[], name⟩)
  | number name n => some (.entry ⟨[], name⟩ (.scalar (.integer n)))

/-- Names need no quotes, and numbers fit in 64 bits. -/
def Plain : Line → Prop
  | blank => True
  | header name => IsBare name
  | number name n => IsBare name ∧ (n : Int) ≤ Int64.maxValue.toInt

end Line

theorem endOfLine_newline (cs : List Char) : endOfLine ('\n' :: cs) = some cs := by
  simp [endOfLine, skipSpaces, isSpace, newline?]

theorem statement_header {name : String} (h : IsBare name) (rest : List Char) :
    statement ((Line.header name).chars ++ rest) = some (.table ⟨[], name⟩, rest) := by
  have hkey : dottedKey (name.toList ++ ']' :: '\n' :: rest) =
      some (⟨[], name⟩, ']' :: '\n' :: rest) := dottedKey_bare h rfl rfl (by decide)
  have hsingle : ∀ cs, name.toList ++ ']' :: '\n' :: rest ≠ '[' :: cs := h.append_ne (by decide)
  have hchars : (Line.header name).chars ++ rest = '[' :: (name.toList ++ ']' :: '\n' :: rest) := by
    simp [Line.chars]
  rw [hchars, statement.eq_2 _ hsingle, hkey]
  simp [character, endOfLine_newline]

theorem chars_number (name : String) (n : Nat) (rest : List Char) :
    (Line.number name n).chars ++ rest =
      name.toList ++ ' ' :: '=' :: ' ' :: (Nat.toDigits 10 n ++ '\n' :: rest) := by
  simp [Line.chars]

theorem keyEquals_number {name : String} (h : IsBare name) (n : Nat) (rest : List Char) :
    keyEquals ((Line.number name n).chars ++ rest) =
      some (⟨[], name⟩, Nat.toDigits 10 n ++ '\n' :: rest) := by
  have hkey : dottedKey ((Line.number name n).chars ++ rest) =
      some (⟨[], name⟩, '=' :: ' ' :: (Nat.toDigits 10 n ++ '\n' :: rest)) := by
    rw [chars_number]
    exact dottedKey_bare h rfl rfl (by decide)
  have hskip : skipSpaces (' ' :: (Nat.toDigits 10 n ++ '\n' :: rest)) =
      Nat.toDigits 10 n ++ '\n' :: rest := by
    cases hds : Nat.toDigits 10 n with
    | nil => exact absurd hds Nat.toDigits_ne_nil
    | cons d ds =>
      have hdigit : d.isDigit = true := isDigit_decimal n d (by simp [hds])
      have hd : isBareKey d = true := by simp [isBareKey, hdigit]
      have hblank : isSpace ' ' = true := rfl
      simp [skipSpaces, hblank, isSpace_of_isBareKey hd]
  simp [keyEquals, hkey, character, hskip]

theorem statement_number {name : String} (h : IsBare name) {n : Nat}
    (hn : (n : Int) ≤ Int64.maxValue.toInt) (rest : List Char) :
    statement ((Line.number name n).chars ++ rest) =
      some (.entry ⟨[], name⟩ (.scalar (.integer n)), rest) := by
  have hopen : ∀ cs, (Line.number name n).chars ++ rest ≠ '[' :: cs := by
    rw [chars_number]
    exact h.append_ne (by decide)
  rw [statement.eq_3 _ (fun cs => hopen _) hopen, keyEquals_number h]
  simp [item_decimal n rest _ _ hn, endOfLine_newline]

/-- A line that begins with a character that is neither blank nor begins a comment nor ends a line
is a statement. -/
theorem statements_cons {c : Char} {cs rest : List Char} {s : Statement}
    (hspace : isSpace c = false) (hc : c ∉ ['#', '\n', '\r'])
    (hs : statement (c :: cs) = some (s, rest)) (fuel : Nat) :
    statements (fuel + 1) (c :: cs) = (statements fuel rest).map (s :: ·) := by
  simp only [List.mem_cons, List.not_mem_nil, or_false, not_or] at hc
  obtain ⟨hcomment, hfeed, hreturn⟩ := hc
  have hskip : skipSpaces (c :: cs) = c :: cs := by simp [skipSpaces, hspace]
  have hend : endOfLine (c :: cs) = none := by
    simp [endOfLine, hskip, newline?, hcomment, hfeed, hreturn]
  rw [statements, hskip]
  simp only [hend, hs, Option.bind_eq_bind, Option.bind_some]
  cases statements fuel rest <;> rfl

theorem statements_line {l : Line} (h : l.Plain) (fuel : Nat) (rest : List Char) :
    statements (fuel + 1) (l.chars ++ rest) =
      (statements fuel rest).map (l.statement?.toList ++ ·) := by
  cases l with
  | blank =>
    rw [Line.chars, List.singleton_append, statements]
    simp [skipSpaces, isSpace, endOfLine_newline, Line.statement?]
  | header name =>
    exact statements_cons (c := '[') rfl (by decide) (statement_header h rest) fuel
  | number name n =>
    obtain ⟨d, ds, hname, hd⟩ := h.1.head
    have hs := statement_number h.1 h.2 rest
    have hchars : ∃ cs, (Line.number name n).chars ++ rest = d :: cs := by
      simp [Line.chars, hname]
    obtain ⟨cs, hcs⟩ := hchars
    rw [hcs] at hs ⊢
    have hcomment : d ≠ '#' := ne_of_class hd (by decide)
    have hfeed : d ≠ '\n' := ne_of_class hd (by decide)
    have hreturn : d ≠ '\r' := ne_of_class hd (by decide)
    exact statements_cons (isSpace_of_isBareKey hd) (by simp [hcomment, hfeed, hreturn]) hs fuel

/-- A text of plain lines is read as the statements that they are. -/
theorem statements_lines {ls : List Line} (h : ∀ l ∈ ls, l.Plain) {fuel : Nat}
    (hfuel : ls.length < fuel) :
    statements fuel (ls.flatMap Line.chars) = some (ls.filterMap Line.statement?) := by
  induction ls generalizing fuel with
  | nil =>
    cases fuel with
    | zero => cases hfuel
    | succ fuel => rfl
  | cons l ls ih =>
    cases fuel with
    | zero => cases hfuel
    | succ fuel =>
      rw [List.flatMap_cons, statements_line (h l List.mem_cons_self),
        ih (fun m hm => h m (List.mem_cons_of_mem l hm)) (Nat.lt_of_succ_lt_succ hfuel)]
      cases hl : l.statement? <;> simp [hl]

theorem length_le_length_chars (ls : List Line) : ls.length ≤ (ls.flatMap Line.chars).length := by
  induction ls with
  | nil => exact Nat.le_refl 0
  | cons l ls ih =>
    have hl : 0 < l.chars.length := by
      rw [List.length_pos_iff]
      cases l <;> simp [Line.chars]
    rw [List.length_cons, List.flatMap_cons, List.length_append]
    omega

/-! ## Documents -/

theorem replace_last {t : Table} {name : String} (h : t.lookup name = none) (i j : Item) :
    (t ++ [(name, i)] : Table).replace name j = t ++ [(name, j)] := by
  induction t with
  | nil => simp [Table.replace]
  | cons e t ih =>
    rw [List.lookup_cons] at h
    split at h
    · cases h
    · next hne => simp [Table.replace, hne, ih h]

namespace Document

/-- The document in which a table `u` is open, behind the tables `t`. -/
def opened (t : Table) (name : String) (u : Table) : Document :=
  ⟨t ++ [(name, .table .header u)], [name]⟩

/-- A header opens a table behind those that are there. -/
theorem apply_header {d : Document} {name : String} (h : d.root.lookup name = none) :
    d.apply (.table ⟨[], name⟩) = some (opened d.root name []) := by
  simp [apply, KeyPath.toList, Table.openTable, Table.follow, opened, h]

/-- An entry goes into the table that is open. -/
theorem apply_entry {t u : Table} {name key : String} (ht : t.lookup name = none)
    (hu : u.lookup key = none) (i : Item) :
    (opened t name u).apply (.entry ⟨[], key⟩ i) = some (opened t name (u ++ [(key, i)])) := by
  have hlast : (t ++ [(name, .table .header u)] : Table).lookup name = some (.table .header u) := by
    simp [List.lookup_append, ht]
  simp [apply, opened, Table.insertAt, Table.insert, Table.follow, hlast, hu, replace_last ht]

/-- A plain line does not begin with a byte order mark. -/
theorem dropMark_lines {ls : List Line} (h : ∀ l ∈ ls, l.Plain) :
    dropMark (ls.flatMap Line.chars) = ls.flatMap Line.chars := by
  cases ls with
  | nil => rfl
  | cons l ls =>
    rw [List.flatMap_cons]
    cases l with
    | blank => rfl
    | header name => rfl
    | number name n =>
      obtain ⟨d, ds, hname, hd⟩ := (h _ List.mem_cons_self).1.head
      have hmark : d ≠ '\uFEFF' := ne_of_class hd (by decide)
      simp [Line.chars, hname, dropMark, hmark]

/-- A text of plain lines is the document that their statements make. -/
theorem read?_lines {text : String} {ls : List Line} (htext : text.toList = ls.flatMap Line.chars)
    (hls : ∀ l ∈ ls, l.Plain) :
    read? text = (ofStatements? (ls.filterMap Line.statement?)).map root := by
  have hfuel : ls.length < (ls.flatMap Line.chars).length + 1 :=
    Nat.lt_succ_of_le (length_le_length_chars ls)
  simp only [read?, htext, dropMark_lines hls, statements_lines hls hfuel, Option.bind_eq_bind,
    Option.bind_some]
  cases ofStatements? (ls.filterMap Line.statement?) <;> rfl

end Document

end ClosureMachine.Toml
