import Mathlib.Data.List.Induction
import Mathlib.Data.List.Nodup
import ClosureMachine.Code.Listing
import ClosureMachine.Proofs.Code.Growth

/-!
What can be read off a listing. An instruction is shown as its name, its operands other than
positions, and the positions it names in the order of `Node.successors`, in parentheses
(`toList_listedNode`). The name ends at the first blank or parenthesis, and the positions are the
last words of the line, so name and positions can be told from the text whatever the operands are
(`opcode_of_shown`, `targets_of_shown`).

No value is shown with a line feed in it (`newline_not_mem_listedValue`), so if no name has one then
every instruction has a line of its own. The main statement is `listing_shows_the_control_graph`.
-/

namespace ClosureMachine

/-! ## Lines -/

/-- The lines of a text; each ends with a line feed, which the last may lack. -/
def textLines : List Char → List (List Char)
  | [] => []
  | c :: cs =>
    if c = '\n' then [] :: textLines cs
    else match textLines cs with
      | [] => [[c]]
      | l :: ls => (c :: l) :: ls

theorem textLines_append {l : List Char} (h : '\n' ∉ l) (cs : List Char) :
    textLines (l ++ '\n' :: cs) = l :: textLines cs := by
  induction l with
  | nil => rfl
  | cons c l ih =>
    have hc : c ≠ '\n' := fun e => h (e ▸ List.mem_cons_self)
    rw [List.cons_append, textLines, if_neg hc, ih fun hm => h (List.mem_cons_of_mem c hm)]

theorem textLines_flatMap {ls : List (List Char)} (h : ∀ l ∈ ls, '\n' ∉ l) :
    textLines (ls.flatMap (· ++ ['\n'])) = ls := by
  induction ls with
  | nil => rfl
  | cons l ls ih =>
    rw [List.flatMap_cons, List.append_assoc, List.singleton_append,
      textLines_append (h l List.mem_cons_self), ih fun m hm => h m (List.mem_cons_of_mem l hm)]

/-! ## Numbers -/

theorem newline_not_mem_digits (n : Nat) : '\n' ∉ Nat.toDigits 10 n := by
  intro h
  exact absurd (Nat.isDigit_of_mem_toDigits (by decide) (by decide) h) (by decide)

theorem blank_not_mem_digits (n : Nat) : ' ' ∉ Nat.toDigits 10 n := by
  intro h
  exact absurd (Nat.isDigit_of_mem_toDigits (by decide) (by decide) h) (by decide)

theorem digits_inj {m n : Nat} (h : Nat.toDigits 10 m = Nat.toDigits 10 n) : m = n := by
  rw [← Nat.ofDigitChars_ten_toDigits (n := m), h, Nat.ofDigitChars_ten_toDigits]

theorem length_digits_mono {m n : Nat} (h : m ≤ n) :
    (Nat.toDigits 10 m).length ≤ (Nat.toDigits 10 n).length := by
  have hpos : 0 < (Nat.toDigits 10 n).length := Nat.length_toDigits_pos
  rw [Nat.length_toDigits_le_iff (by decide) hpos]
  exact Nat.lt_of_le_of_lt h ((Nat.length_toDigits_le_iff (by decide) hpos).mp (Nat.le_refl _))

theorem toList_padded (width n : Nat) :
    (padded width n).toList =
      List.replicate (width - (Nat.toDigits 10 n).length) '0' ++ Nat.toDigits 10 n := by
  simp [padded, ← String.length_toList]

/-! ## Values -/

theorem newline_not_mem_positional (d : Decimal) : '\n' ∉ d.positional.toList := by
  have hpadded : ∀ k, '\n' ∉ List.replicate k '0' ++ Nat.toDigits 10 d.digits := by
    simp [newline_not_mem_digits]
  rw [Decimal.positional]
  split
  · simp [newline_not_mem_digits]
  · simp only [Nat.toList_repr, String.toList_append, String.toList_ofList, List.mem_append, not_or]
    exact ⟨⟨fun h => hpadded _ (List.mem_of_mem_take h), by decide⟩,
      fun h => hpadded _ (List.mem_of_mem_drop h)⟩

theorem newline_not_mem_double (x : Double) : '\n' ∉ x.text.toList := by
  have hunsigned : '\n' ∉ x.unsignedText.toList := by
    rw [Double.unsignedText]
    split
    · decide
    · split
      · simp [toString, newline_not_mem_digits]
      · exact newline_not_mem_positional _
  rw [Double.text]
  split
  · decide
  · split
    · simp [hunsigned]
    · exact hunsigned

theorem newline_not_mem_int (n : Int) : '\n' ∉ (toString n).toList := by
  cases n <;> simp [toString, Int.repr, newline_not_mem_digits]

/-- Values are shown on one line. -/
theorem newline_not_mem_text (v : Value) : '\n' ∉ v.text.toList := by
  rw [Value.text.eq_def]
  cases v with
  | bool b => cases b <;> simp
  | int n => exact newline_not_mem_int _
  | float x => exact newline_not_mem_double x
  | _ => simp [symbolLabel, toString, newline_not_mem_digits]

/-! ## One instruction -/

/-- How many positions an instruction names. -/
def Opcode.fanOut : Opcode → Nat
  | halt | nuate | apply | ret => 0
  | refer | constant | assign | conti | argument => 1
  | close | test | frame => 2

def Opcode.all : List Opcode :=
  [halt, refer, constant, close, test, assign, conti, nuate, frame, argument, apply, ret]

theorem Opcode.name_injective {o o' : Opcode} (h : o.name = o'.name) : o = o' := by
  have hmem : ∀ o : Opcode, o ∈ all := fun o => by cases o <;> decide
  have hnames : (all.map name).Nodup := by decide +kernel
  exact List.inj_on_of_nodup_map hnames (hmem o) (hmem o') h

theorem Opcode.isAlpha_name (o : Opcode) : ∀ c ∈ o.name.toList, c.isAlpha = true := by
  have hall : o.name.toList.all Char.isAlpha = true := by cases o <;> decide
  exact List.all_eq_true.mp hall

namespace Node

theorem length_successors (n : Node) : n.successors.length = n.opcode.fanOut := by
  cases n <;> rfl

/-- The positions an instruction names, as they are shown. -/
def shownTargets (ts : List NodeId) : List Char := ts.flatMap fun t => ' ' :: (nodeLabel t).toList

end Node

namespace Code

/-- The symbols whose spellings are shown with an instruction. -/
def shownSymbols (c : Code) : Node → List SymbolId
  | .refer var _ | .assign var _ | .constant (.symbol var) _ => [var]
  | .close f _ _ => (c.formals? f).getD []
  | .nuate _ var => var.toList
  | _ => []

/-- What is shown of an instruction between its name and the positions it names. -/
def shownOperands (c : Code) (symbols : SymbolTable) : Node → List Char
  | .refer var _ | .assign var _ => ' ' :: (listedSymbol symbols var).toList
  | .constant value _ => ' ' :: (listedValue symbols value).toList
  | .close f _ _ =>
    " (".toList ++ (" ".intercalate (((c.formals? f).getD []).map (listedSymbol symbols))).toList ++
      [')']
  | .nuate stack var =>
    ' ' :: ((var.map (listedSymbol symbols)).getD "#f").toList ++ " #:frame ".toList ++
      match stack with
      | some r => Nat.toDigits 10 r.addr.offset
      | none => "()".toList
  | _ => []

theorem toList_listedNode (c : Code) (symbols : SymbolTable) (n : Node) :
    (c.listedNode symbols n).toList = '(' :: (n.opcode.name.toList ++
      (c.shownOperands symbols n ++ (Node.shownTargets n.successors ++ [')']))) := by
  rw [listedNode.eq_def]
  cases n with
  | nuate stack var =>
    cases stack <;>
      simp [shownOperands, Node.shownTargets, Node.opcode, Opcode.name, Node.successors, toString]
  | _ =>
    simp [shownOperands, Node.shownTargets, Node.opcode, Opcode.name, Node.successors, toString]

/-- The name of an instruction is followed by a blank or by the parenthesis that ends it. -/
theorem head_shown (c : Code) (symbols : SymbolTable) (n : Node) :
    ∃ ch rest, c.shownOperands symbols n ++ (Node.shownTargets n.successors ++ [')']) = ch :: rest ∧
      ch.isAlpha = false := by
  cases n <;> exact ⟨_, _, rfl, rfl⟩

/-- Instructions that are shown alike are of one kind. -/
theorem opcode_of_shown {c d : Code} {symbols : SymbolTable} {n k : Node}
    (h : c.listedNode symbols n = d.listedNode symbols k) : n.opcode = k.opcode := by
  have hname : ∀ (c : Code) (n : Node),
      ((c.listedNode symbols n).toList.drop 1).takeWhile Char.isAlpha = n.opcode.name.toList := by
    intro c n
    obtain ⟨ch, rest, hshown, hch⟩ := c.head_shown symbols n
    rw [toList_listedNode, hshown, List.drop_one, List.tail_cons,
      List.takeWhile_append_of_pos n.opcode.isAlpha_name]
    simp [hch]
  apply Opcode.name_injective
  rw [← String.toList_inj, ← hname c n, ← hname d k, h]

/-- A text with blanks in it can be cut at the last of them in one way only. -/
theorem last_blank_unique {xs ys us vs : List Char} (hu : ' ' ∉ us) (hv : ' ' ∉ vs)
    (h : xs ++ ' ' :: us = ys ++ ' ' :: vs) : xs = ys ∧ us = vs := by
  rcases List.append_eq_append_iff.mp h with ⟨as, hys, htail⟩ | ⟨as, hxs, htail⟩
  · cases as with
    | nil => exact ⟨by simpa using hys.symm, (List.cons.inj htail).2⟩
    | cons a as => exact absurd ((List.cons.inj htail).2 ▸ by simp) hu
  · cases as with
    | nil => exact ⟨by simpa using hxs, (List.cons.inj htail).2.symm⟩
    | cons a as => exact absurd ((List.cons.inj htail).2 ▸ by simp) hv

theorem shownTargets_concat (xs : List Char) (ts : List NodeId) (t : NodeId) :
    xs ++ Node.shownTargets (ts ++ [t]) =
      (xs ++ Node.shownTargets ts ++ " #:vmx".toList) ++ ' ' :: Nat.toDigits 10 t := by
  simp [Node.shownTargets, nodeLabel, toString]

/-- The positions at the end of a text can be told from the text, if their number is known. -/
theorem targets_of_shown {xs ys : List Char} {ts us : List NodeId} (hlen : ts.length = us.length)
    (h : xs ++ Node.shownTargets ts = ys ++ Node.shownTargets us) : ts = us := by
  induction ts using List.reverseRecOn generalizing us with
  | nil => exact (List.eq_nil_of_length_eq_zero hlen.symm).symm
  | append_singleton ts t ih =>
    rcases List.eq_nil_or_concat us with rfl | ⟨us, u, rfl⟩
    · simp at hlen
    · rw [List.concat_eq_append] at h hlen ⊢
      rw [shownTargets_concat, shownTargets_concat] at h
      obtain ⟨hfront, hdigits⟩ :=
        last_blank_unique (blank_not_mem_digits t) (blank_not_mem_digits u) h
      rw [ih (by simpa using hlen) (List.append_cancel_right hfront), digits_inj hdigits]

/-- Instructions that are shown alike name the same positions. -/
theorem successors_of_shown {c d : Code} {symbols : SymbolTable} {n k : Node}
    (h : c.listedNode symbols n = d.listedNode symbols k) : n.successors = k.successors := by
  have hop : n.opcode = k.opcode := opcode_of_shown h
  have hlen : n.successors.length = k.successors.length := by
    rw [n.length_successors, k.length_successors, hop]
  have hchars := congrArg String.toList h
  rw [toList_listedNode, toList_listedNode, hop] at hchars
  have hshown := List.append_cancel_left (List.cons.inj hchars).2
  rw [← List.append_assoc, ← List.append_assoc] at hshown
  exact targets_of_shown hlen (List.append_cancel_right hshown)

/-! ## Whole listings -/

/-- No name that the listing shows has a line feed in it. -/
def ShowsPlainNames (c : Code) (symbols : SymbolTable) : Prop :=
  ∀ id n, c.node? id = some n → ∀ x ∈ c.shownSymbols n, '\n' ∉ (listedSymbol symbols x).toList

theorem newline_not_mem_listedValue {symbols : SymbolTable} {v : Value}
    (h : ∀ id, v = .symbol id → '\n' ∉ (listedSymbol symbols id).toList) :
    '\n' ∉ (listedValue symbols v).toList := by
  cases v with
  | symbol id => simp [listedValue, h id rfl]
  | _ => exact newline_not_mem_text _

theorem newline_not_mem_intercalate {names : List String} (h : ∀ s ∈ names, '\n' ∉ s.toList) :
    '\n' ∉ (" ".intercalate names).toList := by
  rw [String.toList_intercalate]
  induction names with
  | nil => simp
  | cons s names ih =>
    have hs := h s List.mem_cons_self
    have hnames := ih fun t ht => h t (List.mem_cons_of_mem s ht)
    cases names with
    | nil => simpa using hs
    | cons t names =>
      rw [List.map_cons, List.map_cons, List.intercalate_cons_cons]
      simpa [hs] using hnames

theorem newline_not_mem_shownOperands {c : Code} {symbols : SymbolTable} {n : Node}
    (h : ∀ x ∈ c.shownSymbols n, '\n' ∉ (listedSymbol symbols x).toList) :
    '\n' ∉ c.shownOperands symbols n := by
  cases n with
  | refer var next => simpa [shownOperands] using h var (by simp [shownSymbols])
  | assign var next => simpa [shownOperands] using h var (by simp [shownSymbols])
  | constant value next =>
    have hvalue : '\n' ∉ (listedValue symbols value).toList :=
      newline_not_mem_listedValue fun id hid => h id (by simp [hid, shownSymbols])
    simpa [shownOperands] using hvalue
  | close f body next =>
    have hnames := newline_not_mem_intercalate (List.forall_mem_map.mpr h)
    simpa [shownOperands, shownSymbols] using hnames
  | nuate stack var =>
    have hvar : '\n' ∉ ((var.map (listedSymbol symbols)).getD "#f").toList := by
      cases var with
      | none => simp
      | some x => exact h x (by simp [shownSymbols])
    cases stack <;> simp [shownOperands, hvar, newline_not_mem_digits]
  | _ => simp [shownOperands]

theorem newline_not_mem_listedNode {c : Code} {symbols : SymbolTable} {n : Node}
    (h : ∀ x ∈ c.shownSymbols n, '\n' ∉ (listedSymbol symbols x).toList) :
    '\n' ∉ (c.listedNode symbols n).toList := by
  have hname : '\n' ∉ n.opcode.name.toList :=
    fun hm => absurd (n.opcode.isAlpha_name _ hm) (by decide)
  have htargets : '\n' ∉ Node.shownTargets n.successors := by
    simp [Node.shownTargets, nodeLabel, toString, newline_not_mem_digits]
  rw [toList_listedNode]
  simp [hname, htargets, newline_not_mem_shownOperands h]

/-- The lines of the listing. -/
def shownLines (c : Code) (symbols : SymbolTable) : List (List Char) :=
  c.toList.map fun e => (c.listedLine symbols e.1 e.2).toList

theorem toList_listedLine (c : Code) (symbols : SymbolTable) (id : NodeId) (n : Node) :
    (c.listedLine symbols id n).toList = "  [".toList ++ ((padded c.listingWidth id).toList ++
      ("] ".toList ++ (c.listedNode symbols n).toList)) := by
  simp [listedLine, toString]

theorem getElem?_shownLines {c : Code} (hsize : c.size < wordLimit) (symbols : SymbolTable)
    (i : Nat) :
    (c.shownLines symbols)[i]? = (c.node? i).map fun n => (c.listedLine symbols i n).toList := by
  rw [shownLines, List.getElem?_map, getElem?_toList, Option.map_map]
  refine Option.map_congr fun n hn => ?_
  have hi : i % wordLimit = i := Nat.mod_eq_of_lt (Nat.lt_trans (node?_lt hn) hsize)
  rw [Function.comp_apply, hi]

theorem length_shownLines (c : Code) (symbols : SymbolTable) :
    (c.shownLines symbols).length = c.size := by
  simp [shownLines, toList, size]

theorem textLines_listing {c : Code} {symbols : SymbolTable} (hsize : c.size < wordLimit)
    (h : c.ShowsPlainNames symbols) :
    textLines (c.listing symbols).toList = c.shownLines symbols := by
  have hlist : (c.listing symbols).toList = (c.shownLines symbols).flatMap (· ++ ['\n']) := by
    simp [listing, shownLines, List.flatMap_map, String.toList_join]
  rw [hlist]
  apply textLines_flatMap
  intro l hl
  obtain ⟨i, hi⟩ := List.getElem?_of_mem hl
  rw [getElem?_shownLines hsize, Option.map_eq_some_iff] at hi
  obtain ⟨n, hn, rfl⟩ := hi
  rw [toList_listedLine]
  simp [toList_padded, newline_not_mem_digits, newline_not_mem_listedNode (h i n hn)]

/-- Every instruction has a line of its own, which begins with two blanks and the instruction's
position in brackets, with zeros in front up to the width of the largest position. Two codes with
one listing agree, instruction by instruction, on the kind and on the positions named. This holds
for all names without line feeds, so for names without blanks and parentheses. -/
theorem listing_shows_the_control_graph (symbols : SymbolTable) :
    (∀ c : Code, c.size < wordLimit → c.ShowsPlainNames symbols →
      (textLines (c.listing symbols).toList).length = c.size ∧
      ∀ i < c.size, ∃ zeros rest, zeros + (Nat.repr i).length = (Nat.repr (c.size - 1)).length ∧
        (textLines (c.listing symbols).toList)[i]? = some ("  [".toList ++
          List.replicate zeros '0' ++ (Nat.repr i).toList ++ ']' :: rest)) ∧
    ∀ c d : Code, c.size < wordLimit → d.size < wordLimit → c.ShowsPlainNames symbols →
      d.ShowsPlainNames symbols → c.listing symbols = d.listing symbols →
        ∀ i : Nat, (c.node? i).map Node.opcode = (d.node? i).map Node.opcode ∧
          (c.node? i).map Node.successors = (d.node? i).map Node.successors := by
  constructor
  · intro c hsize hnames
    rw [textLines_listing hsize hnames]
    refine ⟨c.length_shownLines symbols, ?_⟩
    intro i hi
    obtain ⟨n, hn⟩ := exists_node_of_lt hi
    have hwidth := length_digits_mono (Nat.le_sub_one_of_lt hi)
    refine ⟨c.listingWidth - (Nat.repr i).length, ' ' :: (c.listedNode symbols n).toList, ?_, ?_⟩
    · simp only [listingWidth, ← String.length_toList, Nat.toList_repr]
      omega
    · rw [getElem?_shownLines hsize, hn, Option.map_some, toList_listedLine, toList_padded]
      simp [← String.length_toList]
  · intro c d hc hd hcnames hdnames hlisting i
    have hlines : c.shownLines symbols = d.shownLines symbols := by
      rw [← textLines_listing hc hcnames, ← textLines_listing hd hdnames, hlisting]
    have hsize : c.size = d.size := by
      rw [← c.length_shownLines symbols, hlines, d.length_shownLines]
    have hline := congrArg (·[i]?) hlines
    simp only [getElem?_shownLines hc, getElem?_shownLines hd] at hline
    cases hn : c.node? i with
    | none =>
      rw [hn, Option.map_none, eq_comm, Option.map_eq_none_iff] at hline
      simp [hline]
    | some n =>
      rw [hn, Option.map_some, eq_comm, Option.map_eq_some_iff] at hline
      obtain ⟨k, hk, hshown⟩ := hline
      rw [toList_listedLine, toList_listedLine, listingWidth, listingWidth, hsize] at hshown
      have hnode : d.listedNode symbols k = c.listedNode symbols n :=
        String.toList_inj.mp (List.append_cancel_left (List.append_cancel_left
          (List.append_cancel_left hshown)))
      simp [hk, opcode_of_shown hnode, successors_of_shown hnode]

/-- Eleven instructions, of which the last refers to a symbol. -/
def longCode (x : SymbolId) : Code where
  nodes := Array.replicate 10 .halt ++ #[.refer x 9]

theorem showsPlainNames_of_unnamed (c : Code) : c.ShowsPlainNames {} := by
  intro id n _ x _
  simp [listedSymbol, SymbolTable.name?]

/-- Symbols without a spelling are all shown alike; the codes differ, their listings do not. -/
theorem listing_shows_the_control_graph_unnamed :
    longCode 7 ≠ longCode 8 ∧ (longCode 7).listing {} = (longCode 8).listing {} ∧
      (textLines ((longCode 7).listing {}).toList).length = 11 ∧
      ((longCode 7).node? 10).map Node.successors =
        ((longCode 8).node? 10).map Node.successors := by
  have hsize : ∀ x, (longCode x).size < wordLimit := by
    simp [longCode, size, wordLimit]
  have hplain : ∀ x, (longCode x).ShowsPlainNames {} := fun _ => showsPlainNames_of_unnamed _
  have hlisting : (longCode 7).listing {} = (longCode 8).listing {} := by decide +kernel
  obtain ⟨hlines, hagree⟩ := listing_shows_the_control_graph {}
  exact ⟨by decide, hlisting, (hlines _ (hsize 7) (hplain 7)).1,
    (hagree _ _ (hsize 7) (hsize 8) (hplain 7) (hplain 8) hlisting 10).2⟩

end Code

end ClosureMachine
