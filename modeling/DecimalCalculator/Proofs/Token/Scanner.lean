import DecimalCalculator.Proofs.Token.Segments

/-!
# Scanning by byte index

A scanner holds a text and how many of its bytes are read. It looks at what is left, reads a symbol
as one byte or a word up to the next symbol, and moves on by the bytes that it has read; behind a
refusal it goes to the end. Taking a part of a text is no more than an attempt (`slice?`): it fails
where an index does not lie between two characters.

All scanners on the way stand between two parts of the text (`between`). From there one item is the
next piece of the text (`next_symbol`, `next_word`), so scanning gives the items of `Token.scan`
(`Scans.items_eq`), ends, and reads every byte once.

* `Yields s steps`   `steps` are all items of `s` with the scanners around them;
* `Scans ls steps`   `steps` read the pieces `ls`, up to the first that is malformed.
-/

namespace DecimalCalculator

/-! ## the scanner -/

/-- a part of a text by its first and its last byte index, which have to lie between characters -/
def slice? (text : String) (first last : String.Pos.Raw) : Option String :=
  if first.isValid text && last.isValid text && decide (first ≤ last) then
    some (first.extract text last)
  else none

/-- an operator or a parenthesis -/
def symbolToken? (c : Char) : Option Token :=
  match Operator.ofSymbol? c with
  | some op => some (.operator op)
  | none => if c = '(' then some .opening else if c = ')' then some .closing else none

/-- the byte index of the first character that is none of a word, or of the end -/
def wordLength : List Char → Nat
  | [] => 0
  | c :: cs => if isWordChar c then c.utf8Size + wordLength cs else 0

/-- the token of the word that a text begins with, and the bytes of the word -/
def word? (view : String) : Option (Except Rejection (Token × Nat)) :=
  let length := wordLength view.toList
  (slice? view 0 ⟨length⟩).map fun w => (Token.ofWord w.toList).map (·, length)

/-- a text, and how many of its bytes are read -/
structure Scanner where
  text : String
  index : String.Pos.Raw

namespace Scanner

def start (text : String) : Scanner := ⟨text, 0⟩

/-- what is not read yet -/
def view? (s : Scanner) : Option String := slice? s.text s.index s.text.rawEndPos

def advance (s : Scanner) (length : Nat) : Scanner := ⟨s.text, ⟨s.index.byteIdx + length⟩⟩

def atEnd (s : Scanner) : Scanner := ⟨s.text, s.text.rawEndPos⟩

end Scanner

/-- what a scanner does next -/
inductive NextItem where
  | item (result : Except Rejection Token) (rest : Scanner)
  | ended
  | misplaced

namespace Scanner

/-- the next token, or a refusal behind which nothing is left -/
def next (s : Scanner) : NextItem :=
  match s.view? with
  | none => .misplaced
  | some view =>
    match view.toList.head? with
    | none => .ended
    | some c =>
      match symbolToken? c with
      | some t => .item (.ok t) (s.advance 1)
      | none =>
        match word? view with
        | none => .misplaced
        | some (.ok (t, length)) => .item (.ok t) (s.advance length)
        | some (.error e) => .item (.error e) s.atEnd

end Scanner

/-- an item, and the scanners in front of it and behind it -/
structure ScanStep where
  before : Scanner
  item : Except Rejection Token
  after : Scanner

/-- the part of the text that a step reads -/
def ScanStep.piece (st : ScanStep) : List Char :=
  (st.before.index.extract st.before.text st.after.index).toList

/-- all that a scanner gives until it has ended -/
inductive Scanner.Yields : Scanner → List ScanStep → Prop
  | ended {s : Scanner} (h : s.next = .ended) : Yields s []
  | item {s rest : Scanner} {result : Except Rejection Token} {steps : List ScanStep}
    (h : s.next = .item result rest) (hrest : Yields rest steps) :
    Yields s (⟨s, result, rest⟩ :: steps)

theorem Scanner.Yields.unique {s : Scanner} {steps steps' : List ScanStep} (h : s.Yields steps)
    (h' : s.Yields steps') : steps = steps' := by
  induction h generalizing steps' with
  | ended h =>
    cases h' with
    | ended => rfl
    | item h' => cases h.symm.trans h'
  | item h _ ih =>
    cases h' with
    | ended h' => cases h.symm.trans h'
    | item h' hrest =>
      cases h.symm.trans h'
      rw [ih hrest]

/-! ## byte indices -/

open String (utf8Len)

theorem isValid_utf8Len (l r : List Char) :
    (⟨utf8Len l⟩ : String.Pos.Raw).IsValid (String.ofList (l ++ r)) := by
  rw [String.Pos.Raw.isValid_iff_exists_append]
  exact ⟨String.ofList l, String.ofList r, String.ofList_append, (String.rawEndPos_ofList l).symm⟩

theorem slice?_append (l m r : List Char) :
    slice? (String.ofList (l ++ m ++ r)) ⟨utf8Len l⟩ ⟨utf8Len (l ++ m)⟩ =
      some (String.ofList m) := by
  have hfirst := isValid_utf8Len l (m ++ r)
  rw [← List.append_assoc] at hfirst
  unfold slice?
  rw [String.Pos.Raw.isValid_eq_true_iff.mpr hfirst,
    String.Pos.Raw.isValid_eq_true_iff.mpr (isValid_utf8Len (l ++ m) r), String.utf8Len_append]
  have hle : (⟨utf8Len l⟩ : String.Pos.Raw) ≤ ⟨utf8Len l + utf8Len m⟩ :=
    String.Pos.Raw.le_iff.mpr (Nat.le_add_right _ _)
  rw [decide_eq_true hle, String.extract_of_valid]
  rfl

/-- a word ends where something else begins -/
theorem wordLength_append {w rest : List Char} (hw : WordChars w)
    (hrest : ∀ d ∈ rest.head?, isWordChar d = false) : wordLength (w ++ rest) = utf8Len w := by
  induction w with
  | nil =>
    cases rest with
    | nil => rfl
    | cons d rest => exact if_neg (by rw [hrest d rfl]; exact Bool.false_ne_true)
  | cons c w ih =>
    obtain ⟨hc, hw⟩ := List.forall_mem_cons.mp hw
    rw [List.cons_append, wordLength, if_pos hc, ih hw, String.utf8Len_cons, Nat.add_comm]

theorem utf8Len_pos {w : List Char} (h : w ≠ []) : 0 < utf8Len w :=
  Nat.pos_of_ne_zero fun h0 => h (String.utf8Len_eq_zero.mp h0)

/-! ## one item -/

/-- a symbol is one byte long -/
theorem symbolToken?_of_spells {c : Char} {t : Token} (hc : isWordChar c = false)
    (h : Token.Spells [c] t) : symbolToken? c = some t ∧ c.utf8Size = 1 := by
  have hlexeme := h.ofLexeme_eq
  rcases exists_symbol hc with ⟨op, rfl⟩ | rfl | rfl
  · cases op <;> cases hlexeme <;> exact ⟨rfl, rfl⟩
  · cases hlexeme
    exact ⟨rfl, rfl⟩
  · cases hlexeme
    exact ⟨rfl, rfl⟩

theorem symbolToken?_of_isWordChar {c : Char} (h : isWordChar c = true) :
    symbolToken? c = none := by
  unfold isWordChar at h
  simp only [Bool.and_eq_true, bne_iff_ne, Option.isNone_iff_eq_none] at h
  obtain ⟨⟨hop, hopening⟩, hclosing⟩ := h
  unfold symbolToken?
  rw [hop]
  exact (if_neg hopening).trans (if_neg hclosing)

theorem word?_append {w rest : List Char} (hw : WordChars w)
    (hrest : ∀ d ∈ rest.head?, isWordChar d = false) :
    word? (String.ofList (w ++ rest)) = some ((Token.ofWord w).map (·, utf8Len w)) := by
  have hslice := slice?_append [] w rest
  rw [List.nil_append] at hslice
  unfold word?
  rw [String.toList_ofList, wordLength_append hw hrest]
  show (slice? _ ⟨utf8Len []⟩ _).map _ = _
  rw [hslice, Option.map_some, String.toList_ofList]

namespace Scanner

/-- a scanner between two parts of its text -/
def between (front back : List Char) : Scanner := ⟨String.ofList (front ++ back), ⟨utf8Len front⟩⟩

theorem start_eq (text : String) : start text = between [] text.toList := by
  unfold start between
  rw [List.nil_append, String.ofList_toList]
  rfl

theorem view?_between (front back : List Char) :
    (between front back).view? = some (String.ofList back) := by
  have hslice := slice?_append front back []
  rw [List.append_nil] at hslice
  unfold view? between
  rw [String.rawEndPos_ofList, hslice]

theorem advance_between (front w back : List Char) :
    (between front (w ++ back)).advance (utf8Len w) = between (front ++ w) back := by
  unfold advance between
  rw [String.utf8Len_append, List.append_assoc]

theorem atEnd_between (front back : List Char) :
    (between front back).atEnd = between (front ++ back) [] := by
  unfold atEnd between
  rw [String.rawEndPos_ofList, List.append_nil]

theorem next_nil (front : List Char) : (between front []).next = .ended := by
  unfold next
  rw [view?_between]
  rfl

theorem next_symbol {c : Char} {t : Token} (hc : isWordChar c = false) (h : Token.Spells [c] t)
    (front rest : List Char) :
    (between front (c :: rest)).next = .item (.ok t) (between (front ++ [c]) rest) := by
  obtain ⟨htoken, hsize⟩ := symbolToken?_of_spells hc h
  have hadvance := advance_between front [c] rest
  rw [String.utf8Len_cons, hsize] at hadvance
  unfold next
  simp only [view?_between, String.toList_ofList, List.head?_cons, htoken]
  rw [← hadvance]
  rfl

/-- a word is read with its token, or refused together with all that is behind it -/
theorem next_word {w rest : List Char} (hne : w ≠ []) (hw : WordChars w)
    (hrest : ∀ d ∈ rest.head?, isWordChar d = false) (front : List Char) :
    (between front (w ++ rest)).next =
      match Token.ofWord w with
      | .ok t => .item (.ok t) (between (front ++ w) rest)
      | .error e => .item (.error e) (between (front ++ (w ++ rest)) []) := by
  obtain ⟨c, cs, rfl⟩ := List.exists_cons_of_ne_nil hne
  have hsymbol := symbolToken?_of_isWordChar (hw c List.mem_cons_self)
  have hword := word?_append hw hrest
  unfold next
  rw [view?_between]
  simp only [String.toList_ofList, List.cons_append, List.head?_cons, hsymbol]
  rw [List.cons_append] at hword
  rw [hword]
  cases Token.ofWord (c :: cs) with
  | ok t => simp only [Except.map, ← advance_between, List.cons_append]
  | error e => simp only [Except.map, ← atEnd_between]

end Scanner

/-! ## all items -/

/-- steps that read pieces one after the other, the first that is malformed to the end -/
inductive Scans : List (List Char) → List ScanStep → Prop
  | nil : Scans [] []
  | token {w : List Char} {t : Token} {ls : List (List Char)} {st : ScanStep}
    {steps : List ScanStep} : Token.Spells w t → st.item = .ok t → st.piece = w → Scans ls steps →
    Scans (w :: ls) (st :: steps)
  | malformed {w : List Char} {ls : List (List Char)} {st : ScanStep} : IsMalformed w →
    st.item = .error (.invalidExpression (.malformedWord (String.ofList w))) →
    st.piece = (w :: ls).flatten → Scans (w :: ls) [st]

namespace Scans

variable {ls : List (List Char)} {steps : List ScanStep}

theorem items_eq (h : Scans ls steps) : steps.map ScanStep.item = Token.ofLexemes ls := by
  induction h with
  | nil => rfl
  | token hspells hitem _ _ ih =>
    rw [List.map_cons, hitem, ih, Token.ofLexemes_cons_of_ok hspells.ofLexeme_eq]
  | @malformed w ls st hm hitem _ =>
    rw [Token.ofLexemes_cons_of_error (Token.ofLexeme_of_isMalformed hm), List.map_singleton, hitem]

theorem flatten_pieces (h : Scans ls steps) : (steps.map ScanStep.piece).flatten = ls.flatten := by
  induction h with
  | nil => rfl
  | token _ _ hpiece _ ih => rw [List.map_cons, List.flatten_cons, hpiece, ih, List.flatten_cons]
  | malformed _ _ hpiece =>
    rw [List.map_singleton, List.flatten_cons, List.flatten_nil, List.append_nil, hpiece]

/-- either every piece is a token, or there is a first that is malformed -/
theorem all_or_malformed (h : Scans ls steps) :
    ((∀ w ∈ ls, ¬IsMalformed w) ∧ steps.map ScanStep.piece = ls ∧
      ∃ ts, List.Forall₂ Token.Spells ls ts ∧ steps.map ScanStep.item = ts.map .ok) ∨
    ∃ front bad back ts, ls = front ++ bad :: back ∧ (∀ w ∈ front, ¬IsMalformed w) ∧
      IsMalformed bad ∧ List.Forall₂ Token.Spells front ts ∧
      steps.map ScanStep.item =
        ts.map .ok ++ [.error (.invalidExpression (.malformedWord (String.ofList bad)))] := by
  induction h with
  | nil => exact Or.inl ⟨fun _ hw => (by cases hw), rfl, [], .nil, rfl⟩
  | @token w t ls st steps hspells hitem hpiece _ ih =>
    rcases ih with ⟨hall, hpieces, ts, hts, hitems⟩ |
      ⟨front, bad, back, ts, rfl, hfront, hbad, hts, hitems⟩
    · refine Or.inl ⟨List.forall_mem_cons.mpr ⟨hspells.not_isMalformed, hall⟩, ?_, t :: ts,
        .cons hspells hts, ?_⟩
      · rw [List.map_cons, hpiece, hpieces]
      · rw [List.map_cons, hitem, hitems, List.map_cons]
    · refine Or.inr ⟨w :: front, bad, back, t :: ts, rfl,
        List.forall_mem_cons.mpr ⟨hspells.not_isMalformed, hfront⟩, hbad, .cons hspells hts, ?_⟩
      rw [List.map_cons, hitem, hitems, List.map_cons, List.cons_append]
  | @malformed w ls st hm hitem _ =>
    exact Or.inr ⟨[], w, ls, [], rfl, fun _ hw => (by cases hw), hm, .nil, by
      rw [List.map_singleton, hitem, List.map_nil, List.nil_append]⟩

end Scans

/-- a step that goes on, from one place between characters to another -/
structure ScanStep.Advances (text : String) (st : ScanStep) : Prop where
  lt : st.before.index < st.after.index
  before : st.before.index.IsValid text
  after : st.after.index.IsValid text

namespace Scanner

/-- the step from one side of a part of the text to the other -/
def stepOver (front w back : List Char) (item : Except Rejection Token) : ScanStep :=
  ⟨between front (w ++ back), item, between (front ++ w) back⟩

theorem piece_stepOver (front w back : List Char) (item : Except Rejection Token) :
    (stepOver front w back item).piece = w := by
  unfold ScanStep.piece stepOver between
  rw [String.utf8Len_append, ← List.append_assoc, String.extract_of_valid, String.toList_ofList]

theorem advances_stepOver {w : List Char} (hne : w ≠ []) (front back : List Char)
    (item : Except Rejection Token) :
    (stepOver front w back item).Advances (String.ofList (front ++ (w ++ back))) where
  lt := by
    have hpos := utf8Len_pos hne
    show utf8Len front < utf8Len (front ++ w)
    rw [String.utf8Len_append]
    omega
  before := isValid_utf8Len front (w ++ back)
  after := by
    rw [← List.append_assoc]
    exact isValid_utf8Len (front ++ w) back

/-- **From any place between two characters** the pieces behind it are read, and then it ends. -/
theorem exists_scans (front back : List Char) :
    ∃ steps, (between front back).Yields steps ∧ Scans (lexemes back) steps ∧
      ∀ st ∈ steps, st.Advances (String.ofList (front ++ back)) := by
  induction back using rec_pieces generalizing front with
  | nil => exact ⟨[], .ended (next_nil front), .nil, fun _ h => by cases h⟩
  | symbol c rest hc ih =>
    obtain ⟨t, ht⟩ := Token.exists_spells_symbol hc
    obtain ⟨steps, hyields, hscans, hadvances⟩ := ih (front ++ [c])
    rw [List.append_assoc] at hadvances
    have hfirst := advances_stepOver (List.cons_ne_nil c []) front rest (.ok t)
    rw [lexemes_cons_of_not_isWordChar hc]
    exact ⟨stepOver front [c] rest (.ok t) :: steps, .item (next_symbol hc ht front rest) hyields,
      .token ht rfl (piece_stepOver front [c] rest _) hscans,
      List.forall_mem_cons.mpr ⟨hfirst, hadvances⟩⟩
  | word w rest hne hw hrest ih =>
    have hnext := next_word hne hw hrest front
    rw [lexemes_word_append hne hw hrest]
    cases hread : Token.ofWord w with
    | ok t =>
      rw [hread] at hnext
      obtain ⟨steps, hyields, hscans, hadvances⟩ := ih (front ++ w)
      rw [List.append_assoc] at hadvances
      have hspells := (Token.ofWord_eq_ok_iff hw).mp hread
      exact ⟨stepOver front w rest (.ok t) :: steps, .item hnext hyields,
        .token hspells rfl (piece_stepOver front w rest _) hscans,
        List.forall_mem_cons.mpr ⟨advances_stepOver hne front rest _, hadvances⟩⟩
    | error e =>
      rw [hread] at hnext
      obtain ⟨hm, he⟩ := (Token.ofWord_eq_error_iff hw).mp hread
      -- this step reads all that is left
      have hpiece := piece_stepOver front (w ++ rest) [] (.error e)
      have hadvances := advances_stepOver (List.append_ne_nil_of_left_ne_nil hne rest) front []
        (.error e)
      rw [stepOver, List.append_nil] at hpiece hadvances
      refine ⟨_, .item hnext (.ended (next_nil _)), .malformed hm (congrArg Except.error he) ?_,
        List.forall_mem_singleton.mpr hadvances⟩
      rw [hpiece, List.flatten_cons, flatten_lexemes]

/-- **Scanning by byte index.** A text has one list of pieces. From its start a scanner never takes
a part of it where a character is cut, and it ends: each step is from one place between characters
to a later one, and the parts read are together the text. If no word is malformed, the parts are the
pieces, with the token of each. Otherwise there are the tokens of the pieces in front of the first
malformed word, then its refusal as an invalid expression, and nothing more. These are the items
that an expression is read from. -/
theorem scanned_by_pieces (text : String) :
    (∀ ls, Segments text.toList ls ↔ ls = lexemes text.toList) ∧
    ∃ steps : List ScanStep,
      (∀ steps', Yields (start text) steps' ↔ steps' = steps) ∧
      (∀ st ∈ steps, st.Advances text) ∧
      (steps.map ScanStep.piece).flatten = text.toList ∧
      steps.map ScanStep.item = Token.scan text.toList ∧
      (((∀ w ∈ lexemes text.toList, ¬IsMalformed w) ∧
          steps.map ScanStep.piece = lexemes text.toList ∧
          ∃ ts, List.Forall₂ Token.Spells (lexemes text.toList) ts ∧
            steps.map ScanStep.item = ts.map .ok) ∨
        ∃ front bad back ts, lexemes text.toList = front ++ bad :: back ∧
          (∀ w ∈ front, ¬IsMalformed w) ∧ IsMalformed bad ∧ List.Forall₂ Token.Spells front ts ∧
          steps.map ScanStep.item =
            ts.map .ok ++ [.error (.invalidExpression (.malformedWord (String.ofList bad)))]) := by
  obtain ⟨steps, hyields, hscans, hadvances⟩ := exists_scans [] text.toList
  rw [← start_eq] at hyields
  rw [List.nil_append, String.ofList_toList] at hadvances
  refine ⟨fun ls => segments_iff, steps, fun steps' => ⟨fun h => h.unique hyields, ?_⟩, hadvances,
    ?_, hscans.items_eq, hscans.all_or_malformed⟩
  · rintro rfl
    exact hyields
  · rw [hscans.flatten_pieces, flatten_lexemes]

end Scanner

end DecimalCalculator
