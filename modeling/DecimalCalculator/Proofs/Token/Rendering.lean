import Mathlib
import DecimalCalculator.Calculator
import DecimalCalculator.Proofs.Token.Signs

/-!
# Reading tokens that were written

The tokens of a text are `Clean`, and clean tokens are written as a text with these tokens. So being
clean is all that the tokens of a text have in common, and writing them loses nothing
(`clean_iff_rendered`).

Between text and tokens stands what was scanned (`Scanned`): the sign in front is a token there, so
no number has a sign of its own. Such tokens may be written without blanks (`dense`), and that text
is in normal form (`Scanned.isChain_dense`) and cut into their texts again (`Scanned.lexemes_dense`).
-/

namespace DecimalCalculator

/-! ## numbers as unsigned numbers -/

namespace Decimal

theorem neg_neg_eq (d : Decimal) : - -d = d := congrArg (Decimal.mk · d.scale) (Int.neg_neg d.digits)

theorem plainMagnitude_neg (d : Decimal) : (-d).plainMagnitude = d.plainMagnitude := by
  unfold plainMagnitude magnitude
  rw [neg_scale, neg_digits, Int.natAbs_neg]

theorem toList_plain_of_nonneg {d : Decimal} (h : 0 ≤ d.digits) :
    d.plain.toList = d.plainMagnitude := by
  rw [toList_plain]
  unfold signText
  rw [if_neg (not_lt.mpr h), List.nil_append]

/-- a minus in front is all that the opposite number adds -/
theorem toList_plain_of_neg {d : Decimal} (h : d.digits < 0) :
    d.plain.toList = '-' :: (-d).plain.toList := by
  have hneg : 0 ≤ (-d).digits := by
    rw [neg_digits]
    omega
  rw [toList_plain_of_nonneg hneg, plainMagnitude_neg, toList_plain]
  unfold signText
  rw [if_pos h]
  rfl

theorem ofUnsigned?_plain {d : Decimal} (hd : 0 ≤ d.digits) (hs : 0 ≤ d.scale) :
    ofUnsigned? d.plain.toList = some d := by
  rw [toList_plain_of_nonneg hd, ofUnsigned?_plainMagnitude, spelledOut_of_nonneg hs,
    Int.natAbs_of_nonneg hd]

theorem digits_nonneg_of_ofUnsigned? {cs : List Char} {v : Decimal}
    (h : ofUnsigned? cs = some v) : 0 ≤ v.digits := by
  unfold ofUnsigned? at h
  split at h
  · cases h
    exact Int.natCast_nonneg _
  · cases h

end Decimal

namespace Token

/-! ## clean lists -/

def isSignOperator : Token → Bool
  | operator op => isSign op.symbol
  | _ => false

theorem exists_operator_of_isSignOperator {t : Token} (h : t.isSignOperator = true) :
    ∃ op, t = operator op ∧ isSign op.symbol = true := by
  cases t with
  | operator op => exact ⟨op, rfl, h⟩
  | number v => cases h
  | identifier name => cases h
  | opening => cases h
  | closing => cases h

theorem isSignOperator_iff {t : Token} :
    t.isSignOperator = true ↔ t = operator .add ∨ t = operator .sub := by
  constructor
  · intro h
    obtain ⟨op, rfl, hop⟩ := exists_operator_of_isSignOperator h
    cases op with
    | add => exact Or.inl rfl
    | sub => exact Or.inr rfl
    | mul => cases hop
    | div => cases hop
    | pow => cases hop
  · rintro (rfl | rfl)
    · rfl
    · rfl

/-- tokens that may stand next to each other -/
structure Apart (a b : Token) : Prop where
  words : ¬(a.isWord = true ∧ b.isWord = true)
  signs : ¬(a.isSignOperator = true ∧ b.isSignOperator = true)
  stars : ¬(a = operator .mul ∧ b = operator .mul)
  slashes : ¬(a = operator .div ∧ b = operator .div)

/-- what the tokens of a text have in common; only the first of them may be a negative number -/
structure Clean (ts : List Token) : Prop where
  names : ∀ name, identifier name ∈ ts → isIdentifier name.toList = true
  scales : ∀ v, number v ∈ ts → 0 ≤ v.scale
  unsigned : ∀ v, number v ∈ ts.tail → 0 ≤ v.digits
  no_sign : ∀ t ∈ ts.head?, t.isSignOperator = false
  apart : ts.IsChain Apart

/-- a token as it is read from a lexeme -/
def Legible : Token → Prop
  | number v => 0 ≤ v.digits ∧ 0 ≤ v.scale
  | identifier name => isIdentifier name.toList = true
  | _ => True

/-- the tokens of a text before the sign in front is dropped -/
structure Scanned (ts : List Token) : Prop where
  legible : ∀ t ∈ ts, t.Legible
  apart : ts.IsChain Apart

/-- how tokens may stand next to each other does not depend on the value of a number -/
theorem apart_number {v w : Decimal} {t : Token} : Apart (number v) t ↔ Apart (number w) t := by
  constructor
  · rintro ⟨h, -, -, -⟩
    exact ⟨h, by simp [isSignOperator], by simp, by simp⟩
  · rintro ⟨h, -, -, -⟩
    exact ⟨h, by simp [isSignOperator], by simp, by simp⟩

theorem isChain_number {v w : Decimal} {ts : List Token} :
    (number v :: ts).IsChain Apart ↔ (number w :: ts).IsChain Apart := by
  rw [List.isChain_cons, List.isChain_cons]
  refine and_congr_left fun _ => forall₂_congr fun t _ => apart_number

/-- the texts of tokens without blanks between them -/
def dense (ts : List Token) : List Char := ts.flatMap fun t => t.text.toList

theorem dense_nil : dense [] = [] := rfl
theorem dense_cons (t : Token) (ts : List Token) : dense (t :: ts) = t.text.toList ++ dense ts :=
  List.flatMap_cons

/-! ## the sign in front -/

theorem dropLeadingSign_of_no_sign {ts : List Token}
    (h : ∀ t ∈ ts.head?, t.isSignOperator = false) : dropLeadingSign ts = .ok ts := by
  unfold dropLeadingSign
  split
  · cases h (operator .add) rfl
  · cases h (operator .sub) rfl
  · cases h (operator .sub) rfl
  · rfl

/-- a plus was dropped, or a minus was given to the number behind it, or there was no sign -/
theorem dropLeadingSign_eq_ok_iff {scanned ts : List Token} :
    dropLeadingSign scanned = .ok ts ↔
      scanned = operator .add :: ts ∨
      (∃ v rest, scanned = operator .sub :: number v :: rest ∧ ts = number (-v) :: rest) ∨
      scanned = ts ∧ ∀ t ∈ ts.head?, t.isSignOperator = false := by
  constructor
  · intro h
    unfold dropLeadingSign at h
    split at h
    · cases h
      exact Or.inl rfl
    · cases h
      exact Or.inr (Or.inl ⟨_, _, rfl, rfl⟩)
    · cases h
    · next hadd _ hsub =>
      cases h
      refine Or.inr (Or.inr ⟨rfl, fun t ht => Bool.eq_false_of_not_eq_true fun hs => ?_⟩)
      have hcons := List.eq_cons_of_mem_head? ht
      rcases isSignOperator_iff.mp hs with rfl | rfl
      · exact hadd _ hcons
      · exact hsub _ hcons
  · rintro (rfl | ⟨v, rest, rfl, rfl⟩ | ⟨rfl, hsign⟩)
    · rfl
    · rfl
    · exact dropLeadingSign_of_no_sign hsign

theorem Scanned.tail {t : Token} {ts : List Token} (h : Scanned (t :: ts)) : Scanned ts :=
  ⟨fun u hu => h.legible u (List.mem_cons_of_mem t hu), h.apart.tail⟩

theorem Scanned.clean {ts : List Token} (h : Scanned ts)
    (hsign : ∀ t ∈ ts.head?, t.isSignOperator = false) : Clean ts where
  names := fun _ hn => h.legible _ hn
  scales := fun _ hv => (h.legible _ hv).2
  unsigned := fun _ hv => (h.legible _ (List.mem_of_mem_tail hv)).1
  no_sign := hsign
  apart := h.apart

/-- the number in front may have any value -/
theorem Clean.with_number {v w : Decimal} {ts : List Token} (h : Clean (number v :: ts))
    (hw : 0 ≤ w.scale) : Clean (number w :: ts) where
  names := fun name hn => h.names name (by simpa using hn)
  scales := by
    intro u hu
    rcases List.mem_cons.mp hu with hu | hu
    · cases hu
      exact hw
    · exact h.scales u (List.mem_cons_of_mem _ hu)
  unsigned := h.unsigned
  no_sign := fun t ht => by cases ht; rfl
  apart := isChain_number.mp h.apart

theorem Clean.scanned {ts : List Token} (h : Clean ts)
    (hv : ∀ v, number v ∈ ts → 0 ≤ v.digits) : Scanned ts where
  legible := by
    intro t ht
    cases t with
    | number v => exact ⟨hv v ht, h.scales v ht⟩
    | identifier name => exact h.names name ht
    | operator op => trivial
    | opening => trivial
    | closing => trivial
  apart := h.apart

/-- dropping the sign in front leaves a clean list -/
theorem clean_of_dropLeadingSign {scanned ts : List Token} (h : Scanned scanned)
    (hd : dropLeadingSign scanned = .ok ts) : Clean ts := by
  rcases dropLeadingSign_eq_ok_iff.mp hd with rfl | ⟨v, rest, rfl, rfl⟩ | ⟨rfl, hsign⟩
  · refine h.tail.clean fun t ht => ?_
    have hapart := (List.isChain_cons.mp h.apart).1 t ht
    exact Bool.eq_false_of_not_eq_true fun hs => hapart.signs ⟨rfl, hs⟩
  · have hclean : Clean (Token.number v :: rest) := h.tail.clean fun t ht => by cases ht; rfl
    exact hclean.with_number (h.legible (.number v) (by simp)).2
  · exact h.clean hsign

/-- a negative number in front was scanned as a minus and its opposite -/
theorem Clean.exists_scanned {ts : List Token} (h : Clean ts) :
    ∃ scanned, Scanned scanned ∧ dropLeadingSign scanned = .ok ts ∧ dense scanned = dense ts := by
  by_cases hneg : ∃ v rest, ts = number v :: rest ∧ v.digits < 0
  · obtain ⟨v, rest, rfl, hneg⟩ := hneg
    have hpos : 0 ≤ (-v).digits := by
      rw [Decimal.neg_digits]
      omega
    have hclean : Clean (number (-v) :: rest) := h.with_number (h.scales v List.mem_cons_self)
    have hscanned : Scanned (number (-v) :: rest) := by
      refine hclean.scanned fun u hu => ?_
      rcases List.mem_cons.mp hu with hu | hu
      · cases hu
        exact hpos
      · exact h.unsigned u hu
    refine ⟨operator .sub :: number (-v) :: rest, ⟨?_, ?_⟩, ?_, ?_⟩
    · exact List.forall_mem_cons.mpr ⟨trivial, hscanned.legible⟩
    · refine List.isChain_cons_cons.mpr ⟨⟨?_, ?_, ?_, ?_⟩, hscanned.apart⟩
      all_goals simp [isWord, isSignOperator]
    · show Except.ok (number (- -v) :: rest) = _
      rw [Decimal.neg_neg_eq]
    · rw [dense_cons, dense_cons, dense_cons]
      show '-' :: ((-v).plain.toList ++ dense rest) = v.plain.toList ++ dense rest
      rw [Decimal.toList_plain_of_neg hneg]
      rfl
  · refine ⟨ts, h.scanned fun v hv => ?_, dropLeadingSign_of_no_sign h.no_sign, rfl⟩
    cases ts with
    | nil => cases hv
    | cons t rest =>
      rcases List.mem_cons.mp hv with rfl | hv
      · exact not_lt.mp fun hlt => hneg ⟨v, rest, rfl, hlt⟩
      · exact h.unsigned v hv

/-! ## the text of a token -/

/-- a word is written as a word -/
theorem isWord_text {t : Token} (h : t.Legible) (ht : t.isWord = true) : IsWord t.text.toList := by
  cases t with
  | number v =>
    have hu := Decimal.ofUnsigned?_plain h.1 h.2
    exact isWord_of_isUnsigned (Decimal.isUnsigned_of_ofUnsigned? hu)
  | identifier name => exact isWord_of_isIdentifier h
  | operator op => cases ht
  | opening => cases ht
  | closing => cases ht

/-- and every other token as one character that is none of a word -/
theorem exists_text_eq {t : Token} (ht : t.isWord = false) :
    ∃ c, t.text.toList = [c] ∧ isWordChar c = false ∧ isBlank c = false := by
  cases t with
  | number v => cases ht
  | identifier name => cases ht
  | operator op => cases op <;> exact ⟨_, rfl, rfl, rfl⟩
  | opening => exact ⟨_, rfl, rfl, rfl⟩
  | closing => exact ⟨_, rfl, rfl, rfl⟩

theorem text_ne_nil {t : Token} (h : t.Legible) : t.text.toList ≠ [] := by
  cases ht : t.isWord with
  | true => exact (isWord_text h ht).ne_nil
  | false =>
    obtain ⟨c, hc, -⟩ := exists_text_eq ht
    rw [hc]
    exact List.cons_ne_nil c []

theorem ofLexeme_text {t : Token} (h : t.Legible) : ofLexeme t.text.toList = .ok t := by
  cases t with
  | number v =>
    rw [ofLexeme_word (isWord_text h rfl)]
    exact ofWord_of_ofUnsigned? (Decimal.ofUnsigned?_plain h.1 h.2)
  | identifier name =>
    rw [ofLexeme_word (isWord_text h rfl)]
    show ofWord name.toList = _
    rw [ofWord_of_isIdentifier h, String.ofList_toList]
  | operator op => cases op <;> rfl
  | opening => rfl
  | closing => rfl

theorem isWord_of_ofLexeme {w : List Char} {t : Token} (h : ofLexeme w = .ok t)
    (ht : t.isWord = true) : IsWord w := by
  rcases ofWord_eq_ok (ofWord_of_ofLexeme h ht) with ⟨v, hv, -⟩ | ⟨hid, -⟩
  · exact isWord_of_isUnsigned (Decimal.isUnsigned_of_ofUnsigned? hv)
  · exact isWord_of_isIdentifier hid

theorem legible_of_ofLexeme {w : List Char} {t : Token} (h : ofLexeme w = .ok t) : t.Legible := by
  cases t with
  | number v =>
    have hu := ofLexeme_eq_number h
    exact ⟨Decimal.digits_nonneg_of_ofUnsigned? hu, Decimal.scale_nonneg_of_ofUnsigned? hu⟩
  | identifier name =>
    rcases ofWord_eq_ok (ofWord_of_ofLexeme h rfl) with ⟨v, -, ht⟩ | ⟨hid, ht⟩
    · cases ht
    · cases ht
      show isIdentifier (String.ofList w).toList = true
      rwa [String.toList_ofList]
  | operator op => trivial
  | opening => trivial
  | closing => trivial

/-! ## tokens next to each other -/

/-- two lexemes next to each other: not both are words, and where they meet the text has neighbours -/
def Adjacent (w u : List Char) : Prop :=
  ∀ x ∈ w.getLast?, ∀ y ∈ u.head?,
    ¬(isWordChar x = true ∧ isWordChar y = true) ∧ Neighbours x y

theorem isChain_lexemes {cs : List Char} (h : cs.IsChain Neighbours) :
    (lexemes cs).IsChain Adjacent := by
  induction cs with
  | nil => exact .nil
  | cons c cs ih =>
    cases cs with
    | nil => exact .singleton [c]
    | cons d rest =>
      obtain ⟨hcd, hrest⟩ := List.isChain_cons_cons.mp h
      have hchain := ih hrest
      obtain ⟨w, ws, hws⟩ := exists_cons_of_lexemes d rest
      rw [hws] at hchain
      rw [lexemes_cons, hws]
      by_cases hword : isWordChar c = true ∧ isWordChar d = true
      · -- a longer word ends as it did before
        rw [joinLexeme_join hword.1 hword.2]
        refine List.isChain_cons.mpr ⟨fun u hu x hx => ?_, hchain.tail⟩
        rw [List.getLast?_cons_cons] at hx
        exact (List.isChain_cons.mp hchain).1 u hu x hx
      · rw [joinLexeme_of_not hword]
        refine List.isChain_cons_cons.mpr ⟨fun x hx y hy => ?_, hchain⟩
        cases hx
        cases hy
        exact ⟨hword, hcd⟩

/-- tokens of lexemes that stand next to each other -/
theorem apart_of_adjacent {w u : List Char} {a b : Token} (hw : ofLexeme w = .ok a)
    (hu : ofLexeme u = .ok b) (h : Adjacent w u) : Apart a b where
  words := by
    rintro ⟨ha, hb⟩
    have hwordw := isWord_of_ofLexeme hw ha
    have hwordu := isWord_of_ofLexeme hu hb
    obtain ⟨y, u, rfl⟩ := List.exists_cons_of_ne_nil hwordu.ne_nil
    refine (h _ (List.getLast?_eq_some_getLast hwordw.ne_nil) y rfl).1 ⟨?_, ?_⟩
    · exact hwordw.isWordChar _ (List.getLast_mem hwordw.ne_nil)
    · exact hwordu.isWordChar y List.mem_cons_self
  signs := by
    rintro ⟨ha, hb⟩
    obtain ⟨o, rfl, ho⟩ := exists_operator_of_isSignOperator ha
    obtain ⟨p, rfl, hp⟩ := exists_operator_of_isSignOperator hb
    rw [ofLexeme_eq_operator hw, ofLexeme_eq_operator hu] at h
    exact (h _ rfl _ rfl).2.1 ⟨ho, hp⟩
  stars := by
    rintro ⟨rfl, rfl⟩
    rw [ofLexeme_eq_operator hw, ofLexeme_eq_operator hu] at h
    cases (h _ rfl _ rfl).2.2
  slashes := by
    rintro ⟨rfl, rfl⟩
    rw [ofLexeme_eq_operator hw, ofLexeme_eq_operator hu] at h
    cases (h _ rfl _ rfl).2.2

theorem scanned_of_collect {cs : List Char} {ts : List Token} (h : cs.IsChain Neighbours)
    (hc : collect (scan cs) = .ok ts) : Scanned ts where
  legible := by
    intro t ht
    obtain ⟨w, -, hw⟩ := exists_lexeme_of_mem_collect hc ht
    exact legible_of_ofLexeme hw
  apart := by
    have hmap : ((lexemes cs).map ofLexeme).IsChain
        fun x y => ∀ a b, x = .ok a → y = .ok b → Apart a b :=
      (List.isChain_map _).mpr ((isChain_lexemes h).imp fun w u hwu a b hw hu =>
        apart_of_adjacent hw hu hwu)
    rw [collect_eq_ok_iff.mp hc, List.isChain_map] at hmap
    exact hmap.imp fun a b hab => hab a b rfl rfl

/-! ## characters next to each other -/

/-- a character that may stand next to any other -/
def Inert (x : Char) : Prop := isSign x = false ∧ x ≠ '*' ∧ x ≠ '/'

theorem Inert.left {x : Char} (h : Inert x) (y : Char) : Neighbours x y := by
  refine ⟨fun hs => by rw [h.1] at hs; exact Bool.false_ne_true hs.1, ?_⟩
  unfold isDoubled
  rw [beq_eq_false_iff_ne.mpr h.2.1, beq_eq_false_iff_ne.mpr h.2.2, Bool.or_false, Bool.and_false]

theorem Inert.right {x : Char} (h : Inert x) (y : Char) : Neighbours y x :=
  ⟨fun hs => (h.left y).1 hs.symm, by rw [isDoubled_comm]; exact (h.left y).2⟩

theorem inert_of_isWordChar {x : Char} (h : isWordChar x = true) : Inert x := by
  refine ⟨isSign_of_isWordChar h, ?_, ?_⟩
  · rintro rfl
    cases h
  · rintro rfl
    cases h

theorem operator_or_inert {t : Token} (h : t.Legible) :
    (∃ op, t = operator op) ∨ ∀ x ∈ t.text.toList, Inert x := by
  cases t with
  | number v => exact Or.inr fun x hx => inert_of_isWordChar ((isWord_text h rfl).isWordChar x hx)
  | identifier name =>
    exact Or.inr fun x hx => inert_of_isWordChar ((isWord_text h rfl).isWordChar x hx)
  | operator op => exact Or.inl ⟨op, rfl⟩
  | opening =>
    refine Or.inr fun x hx => ?_
    cases List.mem_singleton.mp hx
    exact ⟨rfl, by decide, by decide⟩
  | closing =>
    refine Or.inr fun x hx => ?_
    cases List.mem_singleton.mp hx
    exact ⟨rfl, by decide, by decide⟩

theorem toList_text_operator (op : Operator) : (operator op).text.toList = [op.symbol] := by
  cases op <;> rfl

theorem eq_of_symbol_eq {o p : Operator} (h : o.symbol = p.symbol) : o = p := by
  have ho := Operator.ofSymbol?_symbol o
  rw [h, Operator.ofSymbol?_symbol] at ho
  exact (Option.some.inj ho).symm

theorem neighbours_of_apart_operators {o p : Operator} (h : Apart (operator o) (operator p)) :
    Neighbours o.symbol p.symbol := by
  refine ⟨h.signs, Bool.eq_false_of_not_eq_true fun hd => ?_⟩
  rcases isDoubled_iff.mp hd with hd | hd
  · obtain ⟨ho, hp⟩ := Bool.and_eq_true_iff.mp hd
    obtain rfl : o = .mul := eq_of_symbol_eq (beq_iff_eq.mp ho)
    obtain rfl : p = .mul := eq_of_symbol_eq (beq_iff_eq.mp hp)
    exact h.stars ⟨rfl, rfl⟩
  · obtain ⟨ho, hp⟩ := Bool.and_eq_true_iff.mp hd
    obtain rfl : o = .div := eq_of_symbol_eq (beq_iff_eq.mp ho)
    obtain rfl : p = .div := eq_of_symbol_eq (beq_iff_eq.mp hp)
    exact h.slashes ⟨rfl, rfl⟩

/-- where the texts of two tokens meet -/
theorem neighbours_of_apart {a b : Token} (ha : a.Legible) (hb : b.Legible) (h : Apart a b) :
    ∀ x ∈ a.text.toList.getLast?, ∀ y ∈ b.text.toList.head?, Neighbours x y := by
  intro x hx y hy
  rcases operator_or_inert ha with ⟨o, rfl⟩ | hinert
  · rcases operator_or_inert hb with ⟨p, rfl⟩ | hinert
    · rw [toList_text_operator] at hx hy
      cases hx
      cases hy
      exact neighbours_of_apart_operators h
    · exact (hinert y (List.mem_of_mem_head? hy)).right x
  · exact (hinert x (List.mem_of_mem_getLast? hx)).left y

theorem isChain_text {t : Token} (h : t.Legible) : t.text.toList.IsChain Neighbours := by
  rcases operator_or_inert h with ⟨op, rfl⟩ | hinert
  · rw [toList_text_operator]
    exact .singleton _
  · exact (List.pairwise_of_forall_mem_list fun x hx y _ => (hinert x hx).left y).isChain

theorem head?_dense {t : Token} (h : t.Legible) (ts : List Token) :
    (dense (t :: ts)).head? = t.text.toList.head? := by
  rw [dense_cons, List.head?_append_of_ne_nil _ (text_ne_nil h)]

/-- scanned tokens without blanks are a text in normal form -/
theorem Scanned.isChain_dense {ts : List Token} (h : Scanned ts) :
    (dense ts).IsChain Neighbours := by
  induction ts with
  | nil => exact .nil
  | cons t ts ih =>
    have ht := h.legible t List.mem_cons_self
    rw [dense_cons]
    refine List.isChain_append.mpr ⟨isChain_text ht, ih h.tail, fun x hx y hy => ?_⟩
    cases ts with
    | nil => cases hy
    | cons u ts =>
      have hu := h.legible u (by simp)
      rw [head?_dense hu] at hy
      exact neighbours_of_apart ht hu (List.isChain_cons_cons.mp h.apart).1 x hx y hy

/-- and cut into their texts -/
theorem Scanned.lexemes_dense {ts : List Token} (h : Scanned ts) :
    lexemes (dense ts) = ts.map fun t => t.text.toList := by
  induction ts with
  | nil => rfl
  | cons t ts ih =>
    have ht := h.legible t List.mem_cons_self
    rw [dense_cons, List.map_cons, ← ih h.tail]
    cases hword : t.isWord with
    | false =>
      obtain ⟨c, hc, hcw, -⟩ := exists_text_eq hword
      rw [hc, List.singleton_append, lexemes_cons_of_not_isWordChar hcw]
    | true =>
      have hw := isWord_text ht hword
      refine lexemes_word_append hw.ne_nil hw.isWordChar fun d hd => ?_
      cases ts with
      | nil => cases hd
      | cons u ts =>
        have hapart := (List.isChain_cons_cons.mp h.apart).1
        have hu : u.isWord = false := Bool.eq_false_of_not_eq_true fun hu => hapart.words ⟨hword, hu⟩
        obtain ⟨c, hc, hcw, -⟩ := exists_text_eq hu
        rw [head?_dense (h.legible u (by simp)), hc] at hd
        cases hd
        exact hcw

theorem Scanned.collect_dense {ts : List Token} (h : Scanned ts) :
    collect (scan (dense ts)) = .ok ts := by
  refine collect_eq_ok_iff.mpr ?_
  rw [h.lexemes_dense, List.map_map]
  exact List.map_congr_left fun t ht => ofLexeme_text (h.legible t ht)

/-! ## blanks between tokens -/

theorem dropBlanks_spaced (ss : List String) :
    dropBlanks (spaced ss) = ss.flatMap fun s => dropBlanks s.toList := by
  induction ss with
  | nil => rfl
  | cons s ss ih =>
    cases ss with
    | nil => rw [spaced_singleton, List.flatMap_singleton]
    | cons t ss =>
      rw [spaced_cons_cons, dropBlanks_append, List.flatMap_cons, ← ih]
      rfl

theorem not_isBlank_of_mem_text {t : Token}
    (h : ∀ name, t = identifier name → isIdentifier name.toList = true) :
    ∀ c ∈ t.text.toList, isBlank c = false := by
  intro c hc
  cases t with
  | number v =>
    rcases Decimal.mem_plain hc with hd | rfl | rfl
    · exact isBlank_of_isDigit hd
    · rfl
    · rfl
  | identifier name => exact (isWord_of_isIdentifier (h name rfl)).not_isBlank c hc
  | operator op =>
    obtain ⟨d, hd, -, hb⟩ := exists_text_eq (t := operator op) rfl
    rw [hd] at hc
    rwa [List.mem_singleton.mp hc]
  | opening =>
    rw [List.mem_singleton.mp hc]
    rfl
  | closing =>
    rw [List.mem_singleton.mp hc]
    rfl

theorem Clean.dropBlanks_render {ts : List Token} (h : Clean ts) :
    dropBlanks (render ts).toList = dense ts := by
  unfold render dense
  rw [String.toList_ofList, dropBlanks_spaced, List.flatMap_map]
  refine List.flatMap_congr fun t ht => dropBlanks_of_forall (not_isBlank_of_mem_text ?_)
  rintro name rfl
  exact h.names name ht

/-! ## reading and writing -/

theorem clean_of_ofText {text : List Char} {ts : List Token} (h : ofText text = .ok ts) :
    Clean ts := by
  obtain ⟨cs, hcs, h⟩ := bind_eq_ok_iff.mp h
  obtain ⟨scanned, hscanned, hdrop⟩ := bind_eq_ok_iff.mp h
  obtain ⟨hdoubled, rfl⟩ := normalize_eq_ok_iff.mp hcs
  have hchain := isChain_neighbours_iff.mpr
    ⟨noSignRun_collapseSigns _, (hasDoubled_collapseSigns _).trans hdoubled⟩
  exact clean_of_dropLeadingSign (scanned_of_collect hchain hscanned) hdrop

theorem ofText_render {ts : List Token} (h : Clean ts) : ofText (render ts).toList = .ok ts := by
  obtain ⟨scanned, hscanned, hdrop, hdense⟩ := h.exists_scanned
  obtain ⟨hrun, hdoubled⟩ := isChain_neighbours_iff.mp hscanned.isChain_dense
  have hnormal : normalize (render ts).toList = .ok (dense scanned) := by
    rw [normalize_eq_ok_iff, h.dropBlanks_render, ← hdense, collapseSigns_of_noSignRun hrun]
    exact ⟨hdoubled, rfl⟩
  rw [ofText_of_collect hnormal hscanned.collect_dense, hdrop]

/-- The lists of tokens that some text has are exactly the clean ones, and these are exactly the lists
that are read again as they are written, with every digit and every place. -/
theorem clean_iff_rendered (ts : List Token) :
    ((∃ text, (tokenStage text).outcome = .ok ts) ↔ Clean ts) ∧
    ((tokenStage (render ts).toList).outcome = .ok ts ↔ Clean ts) ∧
    ∀ text, (tokenStage text).outcome = .ok ts →
      (tokenStage (render ts).toList).outcome = .ok ts := by
  simp only [outcome_tokenStage]
  refine ⟨⟨?_, fun h => ⟨_, ofText_render h⟩⟩, ⟨clean_of_ofText, ofText_render⟩,
    fun _ h => ofText_render (clean_of_ofText h)⟩
  rintro ⟨text, h⟩
  exact clean_of_ofText h

end Token

end DecimalCalculator
