import ClosureMachine.Proofs.Source.Grammar

/-!
Writing forms down, in any layout. `Form.Written f ts` says that the tokens `ts` write the form `f`:
integers in decimal, lists in parentheses, and a list of the name `quote` and one more form either
so or with a quote character. `Token.LaidOut ts s` says that the text `s` shows the tokens `ts`,
with blanks between them wherever one likes, and at least one between two words.

The main statement is `reading_inverts_writing`: whatever the layout, the reader gives back the
forms that were written, provided that their names are words and none of them is a number.
-/

namespace ClosureMachine

/-! ## Texts of tokens -/

namespace Token

/-- The characters of a token. -/
def text : Token → List Char
  | opening => ['(']
  | closing => [')']
  | quote => ['\'']
  | word cs => cs

/-- Blanks only. -/
def IsGap (gap : List Char) : Prop := ∀ c ∈ gap, isBlank c = true

theorem isGap_nil : IsGap [] := nofun

theorem isGap_singleton {c : Char} (h : isBlank c = true) : IsGap [c] := by
  intro d hd
  rwa [List.mem_singleton.mp hd]

/-- Texts of tokens with nothing in front. After each token there is a gap, which may be empty
unless it divides two words. -/
inductive Lines : List Token → List Char → Prop
  | nil : Lines [] []
  | cons {t : Token} {ts : List Token} {cs : List Char} (gap : List Char) : IsGap gap →
    (∀ w w', t = .word w → ts.head? = some (.word w') → gap ≠ []) → Lines ts cs →
    Lines (t :: ts) (t.text ++ (gap ++ cs))

/-- Texts of tokens. -/
def LaidOut (ts : List Token) (s : String) : Prop :=
  ∃ gap cs, IsGap gap ∧ Lines ts cs ∧ s.toList = gap ++ cs

/-- A character that is no mark ends a word or belongs to it. -/
theorem scan_unmarked {c : Char} (hopen : c ≠ '(') (hclose : c ≠ ')') (hquote : c ≠ '\'')
    (cur cs : List Char) :
    scan cur (c :: cs) = if isBlank c then flush cur ++ scan [] cs else scan (c :: cur) cs := by
  rw [scan.eq_def]
  split
  · next h => cases h
  · next h => exact absurd (List.cons.inj h).1 hopen
  · next h => exact absurd (List.cons.inj h).1 hclose
  · next h => exact absurd (List.cons.inj h).1 hquote
  · next h =>
    obtain ⟨rfl, rfl⟩ := List.cons.inj h
    rfl

theorem scan_blank {c : Char} (h : isBlank c = true) (cur cs : List Char) :
    scan cur (c :: cs) = flush cur ++ scan [] cs := by
  rw [scan_unmarked, if_pos h]
  all_goals
    rintro rfl
    exact absurd h (by decide)

theorem scan_ordinary {c : Char} (h : isOrdinary c = true) (cur cs : List Char) :
    scan cur (c :: cs) = scan (c :: cur) cs := by
  simp only [isOrdinary, Bool.and_eq_true, bne_iff_ne, Bool.not_eq_true'] at h
  obtain ⟨⟨⟨hblank, hopen⟩, hclose⟩, hquote⟩ := h
  rw [scan_unmarked hopen hclose hquote, if_neg (by rw [hblank]; decide)]

/-- A gap in front of a text does not show in its tokens. -/
theorem scan_gap {gap : List Char} (h : IsGap gap) (cs : List Char) :
    scan [] (gap ++ cs) = scan [] cs := by
  induction gap with
  | nil => rfl
  | cons c gap ih =>
    rw [List.cons_append, scan_blank (h c (List.mem_cons_self ..))]
    exact ih fun d hd => h d (List.mem_cons_of_mem _ hd)

theorem scan_word {w : List Char} (h : ∀ c ∈ w, isOrdinary c = true) (cur cs : List Char) :
    scan cur (w ++ cs) = scan (w.reverse ++ cur) cs := by
  induction w generalizing cur with
  | nil => rfl
  | cons c w ih =>
    rw [List.cons_append, scan_ordinary (h c (List.mem_cons_self ..)),
      ih fun d hd => h d (List.mem_cons_of_mem _ hd), List.reverse_cons, List.append_assoc,
      List.singleton_append]

/-- A word ends where the next character does not belong to words. -/
theorem scan_cut {cs : List Char} (h : ∀ c, cs.head? = some c → isOrdinary c = false)
    (cur : List Char) : scan cur cs = flush cur ++ scan [] cs := by
  cases cs with
  | nil => exact (List.append_nil _).symm
  | cons c cs =>
    have hc := h c rfl
    simp only [isOrdinary, Bool.and_eq_false_iff, Bool.not_eq_false', bne_eq_false_iff_eq] at hc
    rcases hc with ((hblank | rfl) | rfl) | rfl
    · rw [scan_blank hblank, scan_blank hblank]
      rfl
    · rfl
    · rfl
    · rfl

theorem flush_reverse {w : List Char} (h : w ≠ []) : flush w.reverse = [word w] := by
  obtain ⟨c, cs, hw⟩ := List.exists_cons_of_ne_nil (mt List.reverse_eq_nil_iff.mp h)
  rw [hw, flush, ← hw, List.reverse_reverse]
  exact List.cons_ne_nil c cs

/-- After a word comes a blank, a mark or the end. -/
theorem Lines.cut {ts : List Token} {gap cs : List Char} (hgap : IsGap gap)
    (hdivided : ∀ w, ts.head? = some (.word w) → gap ≠ []) (h : Lines ts cs) :
    ∀ c, (gap ++ cs).head? = some c → isOrdinary c = false := by
  intro c hc
  cases gap with
  | cons d gap =>
    have hblank := hgap d (List.mem_cons_self ..)
    cases hc
    simp [isOrdinary, hblank]
  | nil =>
    cases h with
    | nil => cases hc
    | @cons t ts cs gap _ _ _ =>
      cases t with
      | word w => exact absurd rfl (hdivided w rfl)
      | _ =>
        cases hc
        decide

/-- The tokens of a text are those that it shows. -/
theorem Lines.scan {ts : List Token} {cs : List Char} (h : Lines ts cs)
    (hw : ∀ w, .word w ∈ ts → IsWord w) : Token.scan [] cs = ts := by
  induction h with
  | nil => rfl
  | @cons t ts cs gap hgap hdivided hrest ih =>
    have hscan : Token.scan [] (gap ++ cs) = ts :=
      (scan_gap hgap cs).trans (ih fun w hmem => hw w (List.mem_cons_of_mem _ hmem))
    cases t with
    | word w =>
      obtain ⟨hne, hordinary⟩ := hw w (List.mem_cons_self ..)
      have hcut := hrest.cut hgap fun w' hhead => hdivided w w' rfl hhead
      rw [text, scan_word hordinary, scan_cut hcut, List.append_nil, flush_reverse hne, hscan]
      rfl
    | opening => exact congrArg _ hscan
    | closing => exact congrArg _ hscan
    | quote => exact congrArg _ hscan

theorem LaidOut.ofText {ts : List Token} {s : String} (h : LaidOut ts s)
    (hw : ∀ w, .word w ∈ ts → IsWord w) : Token.ofText s = ts := by
  obtain ⟨gap, cs, hgap, hlines, hs⟩ := h
  rw [Token.ofText, hs, scan_gap hgap]
  exact hlines.scan hw

/-- One blank after each token will do. -/
theorem exists_lines (ts : List Token) : ∃ cs, Lines ts cs := by
  induction ts with
  | nil => exact ⟨[], .nil⟩
  | cons t ts ih =>
    obtain ⟨cs, h⟩ := ih
    exact ⟨_, .cons [' '] (isGap_singleton rfl) (fun _ _ _ _ => by decide) h⟩

end Token

/-! ## Numerals -/

/-- The decimal digits of a number, with any number of zeros in front. -/
def numeralDigits (zeros n : Nat) : List Char := List.replicate zeros '0' ++ Nat.toDigits 10 n

/-- Decimal numerals: digits, with or without a sign. -/
inductive Numeral : Int → List Char → Prop
  | unsigned (zeros n : Nat) : Numeral n (numeralDigits zeros n)
  | plus (zeros n : Nat) : Numeral n ('+' :: numeralDigits zeros n)
  | minus (zeros n : Nat) : Numeral (-n) ('-' :: numeralDigits zeros n)

theorem isDigit_of_mem_numeralDigits {zeros n : Nat} {c : Char} (h : c ∈ numeralDigits zeros n) :
    c.isDigit = true := by
  rcases List.mem_append.mp h with h | h
  · rw [List.eq_of_mem_replicate h]
    rfl
  · exact Nat.isDigit_of_mem_toDigits (by decide) (by decide) h

theorem numeralDigits_ne_nil (zeros n : Nat) : numeralDigits zeros n ≠ [] := by
  simp [numeralDigits, Nat.toDigits_ne_nil]

theorem decimal?_numeralDigits (zeros n : Nat) : decimal? (numeralDigits zeros n) = some n := by
  have hall : (numeralDigits zeros n).all Char.isDigit = true :=
    List.all_eq_true.mpr fun c hc => isDigit_of_mem_numeralDigits hc
  have hempty : (numeralDigits zeros n).isEmpty = false := by
    simpa using numeralDigits_ne_nil zeros n
  have hvalue : Nat.ofDigitChars 10 (numeralDigits zeros n) 0 = n := by
    rw [numeralDigits, Nat.ofDigitChars_append, Nat.ofDigitChars_replicate_zero, Nat.mul_zero,
      Nat.ofDigitChars_ten_toDigits]
  rw [decimal?, hall, hempty, ← Nat.ofDigitChars_eq_foldl, hvalue]
  rfl

/-- A numeral is read as the number it stands for. -/
theorem Numeral.integer? {n : Int64} {cs : List Char} (h : Numeral n.toInt cs) :
    integer? cs = some n := by
  have hfits := int64?_toInt n
  generalize n.toInt = k at h hfits
  cases h with
  | plus zeros m => simp [ClosureMachine.integer?, decimal?_numeralDigits, hfits]
  | minus zeros m => simp [ClosureMachine.integer?, decimal?_numeralDigits, hfits]
  | unsigned zeros m =>
    have hdecimal := decimal?_numeralDigits zeros m
    have hdigit := @isDigit_of_mem_numeralDigits zeros m
    generalize numeralDigits zeros m = ds at hdecimal hdigit
    unfold ClosureMachine.integer?
    split
    · exact absurd (hdigit (List.mem_cons_self ..)) (by decide)
    · exact absurd (hdigit (List.mem_cons_self ..)) (by decide)
    · simp [hdecimal, hfits]

theorem isOrdinary_of_isDigit {c : Char} (h : c.isDigit = true) : Token.isOrdinary c = true := by
  have hrange : 48 ≤ c.toNat ∧ c.toNat ≤ 57 := by
    simpa [Char.isDigit, UInt32.le_iff_toNat_le] using h
  have hblank : isBlank c = false := by
    simp only [isBlank, Bool.or_eq_false_iff, Bool.and_eq_false_iff, decide_eq_false_iff_not,
      beq_eq_false_iff_ne]
    omega
  have hmark : ∀ m ∈ ['(', ')', '\''], c ≠ m := by
    rintro m hm rfl
    have hm' : c.toNat ≤ 41 := by
      simp only [List.mem_cons, List.not_mem_nil, or_false] at hm
      rcases hm with rfl | rfl | rfl <;> decide
    omega
  simp [Token.isOrdinary, hblank, hmark]

theorem Numeral.isWord {n : Int} {cs : List Char} (h : Numeral n cs) : Token.IsWord cs := by
  have hdigits : ∀ zeros m, ∀ c ∈ numeralDigits zeros m, Token.isOrdinary c = true :=
    fun _ _ _ hc => isOrdinary_of_isDigit (isDigit_of_mem_numeralDigits hc)
  cases h with
  | unsigned zeros m => exact ⟨numeralDigits_ne_nil zeros m, hdigits zeros m⟩
  | plus zeros m =>
    exact ⟨by simp, List.forall_mem_cons.mpr ⟨by decide, hdigits zeros m⟩⟩
  | minus zeros m =>
    exact ⟨by simp, List.forall_mem_cons.mpr ⟨by decide, hdigits zeros m⟩⟩

theorem exists_numeral (n : Int) : ∃ cs, Numeral n cs := by
  rcases Int.eq_nat_or_neg n with ⟨m, rfl | rfl⟩
  · exact ⟨_, .unsigned 0 m⟩
  · exact ⟨_, .minus 0 m⟩

/-! ## Texts of forms -/

namespace Form

mutual

/-- The tokens write the form. -/
inductive Written : Form → List Token → Prop
  | int {n : Int64} {cs : List Char} : Numeral n.toInt cs → Written (.int n) [.word cs]
  | atom {name : String} : Written (.atom name) [.word name.toList]
  | list {fs : List Form} {ts : List Token} : WrittenAll fs ts →
    Written (.list fs) (.opening :: (ts ++ [.closing]))
  | quoted {f : Form} {ts : List Token} : Written f ts →
    Written (.list [.atom "quote", f]) (.quote :: ts)

/-- The tokens write the forms, one after the other. -/
inductive WrittenAll : List Form → List Token → Prop
  | nil : WrittenAll [] []
  | cons {f : Form} {fs : List Form} {ts us : List Token} : Written f ts → WrittenAll fs us →
    WrittenAll (f :: fs) (ts ++ us)

end

/-- A name that is a word and no number. -/
def IsSymbol (name : String) : Prop := Token.IsWord name.toList ∧ integer? name.toList = none

/-- Texts of forms. -/
def LaidOut (fs : List Form) (s : String) : Prop := ∃ ts, WrittenAll fs ts ∧ Token.LaidOut ts s

mutual

/-- What writes a form reads as that form. -/
theorem Written.reads {f : Form} {ts : List Token} (h : Written f ts)
    (hn : ∀ name ∈ f.names, IsSymbol name) :
    Reads ts f ∧ ∀ w, .word w ∈ ts → Token.IsWord w := by
  match h with
  | @Written.int n cs hcs =>
    have hread := Reads.word cs
    rw [ofWord, hcs.integer?] at hread
    refine ⟨hread, fun w hw => ?_⟩
    cases List.mem_singleton.mp hw
    exact hcs.isWord
  | @Written.atom name =>
    obtain ⟨hword, hname⟩ := hn name (List.mem_singleton_self _)
    have hread := Reads.word name.toList
    rw [ofWord, hname, String.ofList_toList] at hread
    refine ⟨hread, fun w hw => ?_⟩
    cases List.mem_singleton.mp hw
    exact hword
  | .list hfs =>
    obtain ⟨hread, hwords⟩ := hfs.reads hn
    exact ⟨.list hread, fun w hw => hwords w (by simpa using hw)⟩
  | @Written.quoted f ts hf =>
    have hn : ∀ name ∈ f.names, IsSymbol name :=
      fun name hname => hn name (by simp [Form.names, namesAll, hname])
    obtain ⟨hread, hwords⟩ := hf.reads hn
    exact ⟨.quote hread, fun w hw => hwords w (by simpa using hw)⟩

theorem WrittenAll.reads {fs : List Form} {ts : List Token} (h : WrittenAll fs ts)
    (hn : ∀ name ∈ namesAll fs, IsSymbol name) :
    ReadsAll ts fs ∧ ∀ w, .word w ∈ ts → Token.IsWord w := by
  match h with
  | .nil => exact ⟨.nil, nofun⟩
  | .cons hf hfs =>
    obtain ⟨hread, hwords⟩ := hf.reads fun name hname => hn name (List.mem_append_left _ hname)
    obtain ⟨hreads, hrest⟩ := hfs.reads fun name hname => hn name (List.mem_append_right _ hname)
    refine ⟨.cons hread hreads, fun w hw => ?_⟩
    rcases List.mem_append.mp hw with hw | hw
    · exact hwords w hw
    · exact hrest w hw

end

mutual

theorem exists_written (f : Form) : ∃ ts, Written f ts := by
  match f with
  | .int n =>
    obtain ⟨cs, hcs⟩ := exists_numeral n.toInt
    exact ⟨_, .int hcs⟩
  | .atom name => exact ⟨_, .atom⟩
  | .list items =>
    obtain ⟨ts, h⟩ := exists_writtenAll items
    exact ⟨_, .list h⟩

theorem exists_writtenAll (fs : List Form) : ∃ ts, WrittenAll fs ts := by
  match fs with
  | [] => exact ⟨_, .nil⟩
  | f :: fs =>
    obtain ⟨ts, h⟩ := exists_written f
    obtain ⟨us, hs⟩ := exists_writtenAll fs
    exact ⟨_, .cons h hs⟩

end

/-- Forms whose names are words and no numbers have texts, and every one of these is read as those
forms. -/
theorem reading_inverts_writing {fs : List Form} (h : ∀ name ∈ namesAll fs, IsSymbol name) :
    (∃ s, LaidOut fs s) ∧ ∀ s, LaidOut fs s → readAll? s = some fs := by
  constructor
  · obtain ⟨ts, hts⟩ := exists_writtenAll fs
    obtain ⟨cs, hcs⟩ := Token.exists_lines ts
    exact ⟨String.ofList cs, ts, hts, [], cs, Token.isGap_nil, hcs, String.toList_ofList⟩
  · rintro s ⟨ts, hwritten, hlaid⟩
    obtain ⟨hread, hwords⟩ := hwritten.reads h
    have htokens : Token.ofText s = ts := hlaid.ofText hwords
    have hsettled : ReadsAll (Token.settle {} ts) fs := hread.settle_eq.symm ▸ hread
    rw [readAll?, htokens]
    exact (ofTokens?_eq_some_iff ts fs).mpr hsettled

/-- A call with a quoted argument and a negative number, over two lines. -/
theorem quoted_call_is_read :
    LaidOut [.list [.atom "f", quoted (.atom "x"), .int (-7)]] "(f\n'x -7)" ∧
      readAll? "(f\n'x -7)" = some [.list [.atom "f", quoted (.atom "x"), .int (-7)]] := by
  have hnames : ∀ name ∈ namesAll [.list [.atom "f", quoted (.atom "x"), .int (-7)]],
      IsSymbol name := by
    intro name hname
    have hname : name = "f" ∨ name = "quote" ∨ name = "x" := by
      simpa [namesAll, Form.names, quoted] using hname
    rcases hname with rfl | rfl | rfl <;>
      exact ⟨by decide +kernel, by decide +kernel⟩
  have hlaid : LaidOut [.list [.atom "f", quoted (.atom "x"), .int (-7)]] "(f\n'x -7)" := by
    have hseven : Numeral (-7 : Int64).toInt ('-' :: numeralDigits 0 7) := .minus 0 7
    have hwritten := WrittenAll.cons (Written.list (.cons (@Written.atom "f")
      (.cons (.quoted (@Written.atom "x")) (.cons (.int hseven) .nil)))) .nil
    have hend := Token.Lines.cons (t := .closing) [] Token.isGap_nil (by simp) .nil
    have hnumber :=
      Token.Lines.cons (t := .word ('-' :: numeralDigits 0 7)) [] Token.isGap_nil (by simp) hend
    have hname := Token.Lines.cons (t := .word "x".toList) [' '] (Token.isGap_singleton rfl)
      (by simp) hnumber
    have hquote := Token.Lines.cons (t := .quote) [] Token.isGap_nil (by simp) hname
    have hhead := Token.Lines.cons (t := .word "f".toList) ['\n'] (Token.isGap_singleton rfl)
      (by simp) hquote
    have hlines := Token.Lines.cons (t := .opening) [] Token.isGap_nil (by simp) hhead
    exact ⟨_, hwritten, [], _, Token.isGap_nil, hlines, by decide +kernel⟩
  exact ⟨hlaid, (reading_inverts_writing hnames).2 _ hlaid⟩

end Form

end ClosureMachine
