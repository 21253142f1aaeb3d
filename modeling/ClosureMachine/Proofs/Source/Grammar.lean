import ClosureMachine.Source.Form

/-!
The grammar of source text, and that the reader follows it. A datum is a word, a quote before a
datum, or data between parentheses: `Form.Reads ts f` says that the tokens `ts` are a datum, and
that `f` is the form it stands for.

The reader keeps its own stack. Whatever it has taken so far is accounted for by that stack and by
the complete forms (`Reading.Accounts`), one token at a time. In one point it is more lenient than
the grammar: a closing parenthesis that closes no list, at top level or right after a quote, is a
name to it. `Token.settle` puts a word in the place of every such parenthesis, and the reader
accepts exactly what is a sequence of data after that (`ofTokens?_eq_some_iff`). So a text in which
every closing parenthesis closes a list is read by the grammar and by nothing else
(`reading_follows_the_grammar`).
-/

namespace ClosureMachine

/-! ## Tokens in their places -/

namespace Token

/-- Characters that words are made of: neither blanks nor parentheses nor quotes. -/
def isOrdinary (c : Char) : Bool := !isBlank c && c != '(' && c != ')' && c != '\''

/-- Something that can be a word of a text. -/
def IsWord (w : List Char) : Prop := w ≠ [] ∧ ∀ c ∈ w, isOrdinary c = true

theorem isWord_iff (w : List Char) : IsWord w ↔ (!w.isEmpty && w.all isOrdinary) = true := by
  simp [IsWord]

instance (w : List Char) : Decidable (IsWord w) := decidable_of_iff' _ (isWord_iff w)

theorem isWord_of_mem_flush {cur w : List Char} (hcur : ∀ c ∈ cur, isOrdinary c = true)
    (h : word w ∈ flush cur) : IsWord w := by
  cases cur with
  | nil => cases h
  | cons c cs =>
    cases List.mem_singleton.mp h
    exact ⟨by simp, fun c hc => hcur c (List.mem_reverse.mp hc)⟩

theorem isWord_of_mem_scan (cur cs : List Char) (hcur : ∀ c ∈ cur, isOrdinary c = true)
    {w : List Char} (h : word w ∈ scan cur cs) : IsWord w := by
  fun_induction scan cur cs with
  | case1 cur => exact isWord_of_mem_flush hcur h
  | case2 cur cs ih | case3 cur cs ih | case4 cur cs ih =>
    rcases List.mem_append.mp h with h | h
    · exact isWord_of_mem_flush hcur h
    · exact ih nofun (by simpa using h)
  | case5 cur c cs hopen hclose hquote hblank ih =>
    rcases List.mem_append.mp h with h | h
    · exact isWord_of_mem_flush hcur h
    · exact ih nofun h
  | case6 cur c cs hopen hclose hquote hblank ih =>
    refine ih ?_ h
    intro d hd
    rcases List.mem_cons.mp hd with rfl | hd
    · simp only [isOrdinary, Bool.and_eq_true, bne_iff_ne, Bool.not_eq_true']
      exact ⟨⟨⟨Bool.not_eq_true _ ▸ hblank, hopen⟩, hclose⟩, hquote⟩
    · exact hcur d hd

/-- Where a token stands: inside how many lists, and whether right after a quote. -/
structure Place where
  depth : Nat := 0
  quoted : Bool := false

/-- What a token counts as. A closing parenthesis that closes no list is a word. -/
def Place.count (p : Place) : Token → Token
  | .closing => if p.quoted || p.depth == 0 then .word [')'] else .closing
  | t => t

/-- The place after a token. -/
def Place.after (p : Place) : Token → Place
  | .opening => ⟨p.depth + 1, false⟩
  | .closing => ⟨p.depth - 1, false⟩
  | .quote => ⟨p.depth, true⟩
  | .word _ => ⟨p.depth, false⟩

/-- What the tokens count as, one after the other. -/
def settle (p : Place) : List Token → List Token
  | [] => []
  | t :: ts => p.count t :: settle (p.after (p.count t)) ts

theorem count_opening_settle (p : Place) (ts : List Token) :
    (settle p ts).count .opening = ts.count .opening := by
  induction ts generalizing p with
  | nil => rfl
  | cons t ts ih =>
    have hcount : p.count t = .opening ↔ t = .opening := by
      cases t with
      | closing =>
        rw [Place.count]
        split <;> simp
      | _ => rfl
    simp only [settle, List.count_cons, beq_iff_eq, ih, hcount]

theorem count_closing_settle_le (p : Place) (ts : List Token) :
    (settle p ts).count .closing ≤ ts.count .closing := by
  induction ts generalizing p with
  | nil => exact Nat.le_refl _
  | cons t ts ih =>
    have hcount : p.count t = .closing → t = .closing := by
      cases t with
      | closing => exact fun _ => rfl
      | _ => exact id
    have hrest := ih (p.after (p.count t))
    simp only [settle, List.count_cons, beq_iff_eq]
    split
    · next h =>
      rw [if_pos (hcount h)]
      omega
    · omega

/-- Every list that is opened is closed, and none is closed before it is opened. -/
structure Balanced (ts : List Token) : Prop where
  total : ts.count .opening = ts.count .closing
  ahead : ∀ n, (ts.take n).count .closing ≤ (ts.take n).count .opening

theorem balanced_nil : Balanced [] := ⟨rfl, fun n => by simp⟩

theorem Balanced.append {ts us : List Token} (ht : Balanced ts) (hu : Balanced us) :
    Balanced (ts ++ us) where
  total := by rw [List.count_append, List.count_append, ht.total, hu.total]
  ahead n := by
    have h₁ := ht.ahead n
    have h₂ := hu.ahead (n - ts.length)
    rw [List.take_append, List.count_append, List.count_append]
    omega

/-- Tokens that are no parentheses do not matter. -/
theorem Balanced.cons {t : Token} {ts : List Token} (ho : t ≠ .opening) (hc : t ≠ .closing)
    (h : Balanced ts) : Balanced (t :: ts) where
  total := by rw [List.count_cons_of_ne ho, List.count_cons_of_ne hc, h.total]
  ahead n := by
    cases n with
    | zero => exact Nat.le_refl _
    | succ n =>
      rw [List.take_succ_cons, List.count_cons_of_ne ho, List.count_cons_of_ne hc]
      exact h.ahead n

theorem Balanced.enclosed {ts : List Token} (h : Balanced ts) :
    Balanced (.opening :: (ts ++ [.closing])) where
  total := by
    have ho : [closing].count opening = 0 := by decide
    have hc : [closing].count closing = 1 := by decide
    rw [List.count_cons_self, List.count_cons_of_ne (by decide), List.count_append,
      List.count_append, ho, hc, h.total]
  ahead n := by
    cases n with
    | zero => exact Nat.le_refl _
    | succ n =>
      have hahead := h.ahead n
      have hlast : ([.closing].take (n - ts.length)).count Token.closing ≤ 1 :=
        Nat.le_trans List.count_le_length (List.length_take_le' ..)
      rw [List.take_succ_cons, List.take_append, List.count_cons_of_ne (by decide),
        List.count_cons_self, List.count_append, List.count_append]
      omega

end Token

namespace Form

/-! ## Data -/

mutual

/-- The tokens are one datum, and the form is what it stands for. -/
inductive Reads : List Token → Form → Prop
  | word (cs : List Char) : Reads [.word cs] (ofWord cs)
  | quote {ts : List Token} {f : Form} : Reads ts f → Reads (.quote :: ts) (quoted f)
  | list {ts : List Token} {fs : List Form} : ReadsAll ts fs →
    Reads (.opening :: (ts ++ [.closing])) (.list fs)

/-- The tokens are data, one after the other. -/
inductive ReadsAll : List Token → List Form → Prop
  | nil : ReadsAll [] []
  | cons {ts us : List Token} {f : Form} {fs : List Form} : Reads ts f → ReadsAll us fs →
    ReadsAll (ts ++ us) (f :: fs)

end

theorem ReadsAll.append {ts us : List Token} {fs gs : List Form} :
    ReadsAll ts fs → ReadsAll us gs → ReadsAll (ts ++ us) (fs ++ gs)
  | .nil, hu => hu
  | .cons hf hfs, hu => by
    rw [List.append_assoc]
    exact .cons hf (hfs.append hu)

theorem Reads.all {ts : List Token} {f : Form} (h : Reads ts f) : ReadsAll ts [f] := by
  have hall := ReadsAll.cons h .nil
  rwa [List.append_nil] at hall

mutual

/-- In a datum every closing parenthesis closes a list. -/
theorem Reads.settle {ts : List Token} {f : Form} (h : Reads ts f) (p : Token.Place)
    (rest : List Token) :
    Token.settle p (ts ++ rest) = ts ++ Token.settle ⟨p.depth, false⟩ rest := by
  match h with
  | .word cs => rfl
  | .quote h =>
    rw [List.cons_append, Token.settle, List.cons_append]
    exact congrArg _ (h.settle _ rest)
  | .list h =>
    rw [List.cons_append, Token.settle, List.cons_append, List.append_assoc, List.append_assoc]
    exact congrArg _ (h.settle _ _)

theorem ReadsAll.settle {ts : List Token} {fs : List Form} (h : ReadsAll ts fs) (d : Nat)
    (rest : List Token) :
    Token.settle ⟨d, false⟩ (ts ++ rest) = ts ++ Token.settle ⟨d, false⟩ rest := by
  match h with
  | .nil => rfl
  | .cons hf hfs =>
    rw [List.append_assoc, hf.settle, hfs.settle, List.append_assoc]

end

theorem ReadsAll.settle_eq {ts : List Token} {fs : List Form} (h : ReadsAll ts fs) :
    Token.settle {} ts = ts := by
  have hs := h.settle 0 []
  rwa [List.append_nil, Token.settle, List.append_nil] at hs

/-! ## What the reader has taken -/

namespace Pending

def isList : Pending → Bool
  | list _ => true
  | quote => false

end Pending

mutual

/-- The reader takes a datum for what it stands for. -/
theorem Reads.taken {ts : List Token} {f : Form} (h : Reads ts f) (r : Reading) :
    ts.foldl Reading.take r = Reading.deliver f r.forms r.stack := by
  match h with
  | .word cs => rfl
  | .quote h => exact h.taken _
  | .list h =>
    rw [List.foldl_cons, List.foldl_append, Reading.take, h.taken_listed]
    simp only [List.append_nil, List.foldl_cons, List.foldl_nil, Reading.take,
      List.reverse_reverse]

theorem ReadsAll.taken_listed {ts : List Token} {fs : List Form} (h : ReadsAll ts fs)
    (items : List Form) (stack : List Pending) (forms : List Form) :
    ts.foldl Reading.take ⟨.list items :: stack, forms⟩ =
      ⟨.list (fs.reverse ++ items) :: stack, forms⟩ := by
  match h with
  | .nil => rfl
  | .cons hf hfs =>
    rw [List.foldl_append, hf.taken, Reading.deliver, hfs.taken_listed, List.reverse_cons,
      List.append_assoc, List.singleton_append]

end

theorem ReadsAll.taken {ts : List Token} {fs : List Form} (forms : List Form) :
    ReadsAll ts fs → ts.foldl Reading.take ⟨[], forms⟩ = ⟨[], fs.reverse ++ forms⟩
  | .nil => rfl
  | .cons hf hfs => by
    rw [List.foldl_append, hf.taken, Reading.deliver, hfs.taken, List.reverse_cons,
      List.append_assoc, List.singleton_append]

namespace Reading

/-- Where the next token stands. -/
def place (r : Reading) : Token.Place where
  depth := r.stack.countP Pending.isList
  quoted := match r.stack with
    | .quote :: _ => true
    | _ => false

theorem place_list (items : List Form) (stack : List Pending) (forms : List Form) :
    place ⟨.list items :: stack, forms⟩ = ⟨stack.countP Pending.isList + 1, false⟩ := by
  rw [place, List.countP_cons_of_pos rfl]

theorem place_quote (stack : List Pending) (forms : List Form) :
    place ⟨.quote :: stack, forms⟩ = ⟨stack.countP Pending.isList, true⟩ := by
  rw [place, List.countP_cons_of_neg (by decide)]

/-- A complete form leaves no quote waiting. -/
theorem place_deliver (f : Form) (forms : List Form) (stack : List Pending) :
    (deliver f forms stack).place = ⟨stack.countP Pending.isList, false⟩ := by
  induction stack generalizing f with
  | nil => rfl
  | cons p stack ih =>
    cases p with
    | list items => rfl
    | quote => exact ih (quoted f)

/-- A token is taken as what it counts as. -/
theorem take_count (r : Reading) (t : Token) : r.take (r.place.count t) = r.take t := by
  obtain ⟨stack, forms⟩ := r
  cases t with
  | closing =>
    match stack with
    | [] => rfl
    | .quote :: stack => rfl
    | .list items :: stack => simp [place_list, Token.Place.count]
  | _ => rfl

theorem place_take (r : Reading) (t : Token) :
    (r.take t).place = r.place.after (r.place.count t) := by
  obtain ⟨stack, forms⟩ := r
  cases t with
  | opening => exact place_list [] stack forms
  | quote => exact place_quote stack forms
  | word cs => exact place_deliver _ _ _
  | closing =>
    match stack with
    | [] => exact place_deliver _ _ _
    | .quote :: stack => exact place_deliver _ _ _
    | .list items :: stack =>
      rw [take, place_deliver, place_list]
      rfl

/-- Tokens are taken as what they count as. -/
theorem foldl_settle (ts : List Token) (r : Reading) :
    (Token.settle r.place ts).foldl take r = ts.foldl take r := by
  induction ts generalizing r with
  | nil => rfl
  | cons t ts ih =>
    rw [Token.settle, List.foldl_cons, List.foldl_cons, take_count, ← place_take]
    exact ih (r.take t)

/-- The tokens that have opened what is on the stack, with the data inside so far. -/
inductive Opens : List Token → List Pending → Prop
  | nil : Opens [] []
  | list {us ts : List Token} {stack : List Pending} {items : List Form} : Opens us stack →
    ReadsAll ts items.reverse → Opens (us ++ .opening :: ts) (.list items :: stack)
  | quote {us : List Token} {stack : List Pending} : Opens us stack →
    Opens (us ++ [.quote]) (.quote :: stack)

/-- The tokens taken so far are the complete forms and then what is open. -/
def Accounts (r : Reading) (ts : List Token) : Prop :=
  ∃ done us, ts = done ++ us ∧ ReadsAll done r.forms.reverse ∧ Opens us r.stack

theorem accounts_start : Accounts {} [] := ⟨[], [], rfl, .nil, .nil⟩

/-- A datum has been completed. -/
theorem accounts_deliver {done us ts : List Token} {forms : List Form} {stack : List Pending}
    {f : Form} (hd : ReadsAll done forms.reverse) (ho : Opens us stack) (h : Reads ts f) :
    Accounts (deliver f forms stack) (done ++ (us ++ ts)) := by
  induction ho generalizing ts f with
  | nil =>
    refine ⟨done ++ ts, [], by simp, ?_, .nil⟩
    rw [deliver, List.reverse_cons]
    exact hd.append h.all
  | @list us ts' stack items ho hitems _ =>
    refine ⟨done, us ++ .opening :: (ts' ++ ts), by simp, hd, .list ho ?_⟩
    rw [List.reverse_cons]
    exact hitems.append h.all
  | @quote us stack _ ih =>
    rw [List.append_assoc, List.singleton_append]
    exact ih (.quote h)

/-- One more token is accounted for, as what it counts as. -/
theorem Accounts.take {r : Reading} {ts : List Token} (h : r.Accounts ts) (t : Token) :
    (r.take t).Accounts (ts ++ [r.place.count t]) := by
  obtain ⟨done, us, rfl, hd, ho⟩ := h
  obtain ⟨stack, forms⟩ := r
  rw [List.append_assoc]
  cases t with
  | opening => exact ⟨done, _, rfl, hd, .list ho .nil⟩
  | quote => exact ⟨done, _, rfl, hd, .quote ho⟩
  | word cs => exact accounts_deliver hd ho (.word cs)
  | closing =>
    cases ho with
    | nil => exact accounts_deliver hd .nil (.word [')'])
    | quote ho => exact accounts_deliver hd (.quote ho) (.word [')'])
    | @list us ts stack items ho hitems =>
      have hclosed := accounts_deliver hd ho (.list hitems)
      simpa [Reading.take, place_list, Token.Place.count] using hclosed

theorem Accounts.run {r : Reading} {ts : List Token} (h : r.Accounts ts) (us : List Token) :
    (us.foldl Reading.take r).Accounts (ts ++ Token.settle r.place us) := by
  induction us generalizing r ts with
  | nil => rwa [Token.settle, List.append_nil]
  | cons u us ih =>
    have hrest := ih (h.take u)
    rw [place_take, List.append_assoc, List.singleton_append] at hrest
    exact hrest

end Reading

/-! ## Exactness -/

/-- The reader accepts the tokens that are data once they count as what they count as. -/
theorem ofTokens?_eq_some_iff (ts : List Token) (fs : List Form) :
    ofTokens? ts = some fs ↔ ReadsAll (Token.settle {} ts) fs := by
  constructor
  · intro h
    have haccounts := Reading.accounts_start.run ts
    unfold ofTokens? at h
    generalize ts.foldl Reading.take {} = r at h haccounts
    obtain ⟨stack, forms⟩ := r
    cases stack with
    | nil =>
      obtain ⟨done, us, hts, hd, ho⟩ := haccounts
      cases ho
      cases h
      rw [List.nil_append, List.append_nil] at hts
      exact hts ▸ hd
    | cons p stack => cases h
  · intro h
    have htaken := (Reading.foldl_settle ts {}).symm.trans (h.taken [])
    simp [ofTokens?, htaken]

mutual

theorem Reads.balanced {ts : List Token} {f : Form} : Reads ts f → Token.Balanced ts
  | .word _ => Token.balanced_nil.cons nofun nofun
  | .quote h => h.balanced.cons nofun nofun
  | .list h => h.balanced.enclosed

theorem ReadsAll.balanced {ts : List Token} {fs : List Form} : ReadsAll ts fs → Token.Balanced ts
  | .nil => Token.balanced_nil
  | .cons hf hfs => hf.balanced.append hfs.balanced

end

/-! ## Names -/

mutual

/-- The names in a form. -/
def names : Form → List String
  | .int _ => []
  | .atom name => [name]
  | .list items => namesAll items

def namesAll : List Form → List String
  | [] => []
  | f :: fs => names f ++ namesAll fs

end

mutual

theorem Reads.names {ts : List Token} {f : Form} (h : Reads ts f)
    (hw : ∀ w, .word w ∈ ts → Token.IsWord w) : ∀ name ∈ f.names, Token.IsWord name.toList := by
  match h with
  | .word cs =>
    intro name hname
    rw [ofWord] at hname
    split at hname
    · cases hname
    · cases List.mem_singleton.mp hname
      rw [String.toList_ofList]
      exact hw cs (List.mem_singleton_self _)
  | .quote h =>
    intro name hname
    simp only [quoted, Form.names, namesAll, List.append_nil, List.singleton_append,
      List.mem_cons] at hname
    rcases hname with rfl | hname
    · decide +kernel
    · exact h.names (fun w hmem => hw w (List.mem_cons_of_mem _ hmem)) name hname
  | .list h =>
    refine h.names fun w hmem => hw w ?_
    exact List.mem_cons_of_mem _ (List.mem_append_left _ hmem)

theorem ReadsAll.names {ts : List Token} {fs : List Form} (h : ReadsAll ts fs)
    (hw : ∀ w, .word w ∈ ts → Token.IsWord w) :
    ∀ name ∈ namesAll fs, Token.IsWord name.toList := by
  match h with
  | .nil => exact nofun
  | .cons hf hfs =>
    intro name hname
    rcases List.mem_append.mp hname with hname | hname
    · exact hf.names (fun w hmem => hw w (List.mem_append_left _ hmem)) name hname
    · exact hfs.names (fun w hmem => hw w (List.mem_append_right _ hmem)) name hname

end

/-- Of every text the reader makes the data that its tokens are, where a closing parenthesis that
closes no list counts as a word. So the texts of the grammar are those that it reads and in which
every closing parenthesis closes a list; in these the parentheses are balanced and no name holds
one. No text with a list left open is read. -/
theorem reading_follows_the_grammar (s : String) (fs : List Form) :
    (readAll? s = some fs ↔ ReadsAll (Token.settle {} (Token.ofText s)) fs) ∧
      (ReadsAll (Token.ofText s) fs ↔
        readAll? s = some fs ∧ Token.settle {} (Token.ofText s) = Token.ofText s) ∧
      (ReadsAll (Token.ofText s) fs → Token.Balanced (Token.ofText s) ∧
        ∀ name ∈ namesAll fs, Token.IsWord name.toList) ∧
      (readAll? s = some fs →
        (Token.ofText s).count .opening ≤ (Token.ofText s).count .closing) := by
  have hexact := ofTokens?_eq_some_iff (Token.ofText s) fs
  refine ⟨hexact, ⟨fun h => ?_, fun ⟨h, hs⟩ => ?_⟩, fun h => ⟨h.balanced, ?_⟩, fun h => ?_⟩
  · have hs := h.settle_eq
    exact ⟨hexact.mpr (hs.symm ▸ h), hs⟩
  · exact hs ▸ hexact.mp h
  · exact h.names fun w hw => Token.isWord_of_mem_scan [] s.toList nofun hw
  · have htotal := (hexact.mp h).balanced.total
    have hopening := Token.count_opening_settle {} (Token.ofText s)
    have hclosing := Token.count_closing_settle_le {} (Token.ofText s)
    omega

/-- A lone closing parenthesis is read, though it is no datum. -/
theorem stray_parenthesis_is_read :
    readAll? ")" = some [.atom ")"] ∧ ¬ ∃ fs, ReadsAll (Token.ofText ")") fs := by
  have htokens : Token.ofText ")" = [.closing] := by decide +kernel
  constructor
  · rw [readAll?, htokens]
    rfl
  · rintro ⟨fs, h⟩
    rw [htokens] at h
    exact absurd h.balanced.total (by decide)

end Form

end ClosureMachine
