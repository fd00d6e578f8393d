import Mathlib
import DecimalCalculator.Proofs.Literals

/-!
# The pieces of a text

A text is cut in one way into characters that are no word characters and the longest words between
them (`segments_iff`). So a text is nothing, or such a character in front of a text, or a word in
front of one that does not go on with it, and this is how it is taken apart (`rec_pieces`).

* `Segments text ls`    `ls` are the pieces of `text`, said without an algorithm;
* `Token.Spells w t`    `w` is a piece that is read as the token `t`;
* `IsMalformed w`       `w` is a word that is read as no token.
-/

namespace DecimalCalculator

/-! ## pieces -/

/-- no operator and no parenthesis -/
def WordChars (w : List Char) : Prop := ∀ c ∈ w, isWordChar c = true

theorem not_wordChars_cons {c : Char} (h : isWordChar c = false) (w : List Char) :
    ¬WordChars (c :: w) := by
  intro hw
  rw [hw c List.mem_cons_self] at h
  cases h

/-- induction on a text by its pieces -/
theorem rec_pieces {motive : List Char → Prop} (nil : motive [])
    (symbol : ∀ c rest, isWordChar c = false → motive rest → motive (c :: rest))
    (word : ∀ w rest, w ≠ [] → WordChars w → (∀ d ∈ rest.head?, isWordChar d = false) →
      motive rest → motive (w ++ rest)) (text : List Char) : motive text := by
  induction hn : text.length using Nat.strong_induction_on generalizing text with
  | h n ih =>
    cases text with
    | nil => exact nil
    | cons c cs =>
      cases hc : isWordChar c with
      | false =>
        rw [List.length_cons] at hn
        exact symbol c cs hc (ih cs.length (by omega) cs rfl)
      | true =>
        have hcut := List.takeWhile_append_dropWhile (p := isWordChar) (l := c :: cs)
        have hlength := congrArg List.length hcut
        have htake : (c :: cs).takeWhile isWordChar ≠ [] := by
          rw [List.takeWhile_cons_of_pos hc]
          exact List.cons_ne_nil _ _
        have hpos := List.length_pos_iff.mpr htake
        rw [List.length_append] at hlength
        rw [← hcut]
        refine word _ _ htake (fun d hd => List.mem_takeWhile_imp hd) (fun d hd => ?_)
          (ih _ (by omega) _ rfl)
        have hhead := List.head?_dropWhile_not isWordChar (c :: cs)
        rw [hd] at hhead
        exact hhead

/-- the pieces of a text: together they are the text, each is a word or a character that is none of
a word, and no word goes on -/
structure Segments (text : List Char) (ls : List (List Char)) : Prop where
  flatten : ls.flatten = text
  piece : ∀ w ∈ ls, (∃ c, w = [c] ∧ isWordChar c = false) ∨ w ≠ [] ∧ WordChars w
  maximal : ls.IsChain fun w u => ¬(WordChars w ∧ WordChars u)

theorem segments_lexemes (text : List Char) : Segments text (lexemes text) := by
  refine ⟨flatten_lexemes text, ?_, ?_⟩
  · induction text using rec_pieces with
    | nil => exact fun _ hw => by cases hw
    | symbol c rest hc ih =>
      rw [lexemes_cons_of_not_isWordChar hc]
      exact List.forall_mem_cons.mpr ⟨Or.inl ⟨c, rfl, hc⟩, ih⟩
    | word w rest hne hw hrest ih =>
      rw [lexemes_word_append hne hw hrest]
      exact List.forall_mem_cons.mpr ⟨Or.inr ⟨hne, hw⟩, ih⟩
  · induction text using rec_pieces with
    | nil => exact .nil
    | symbol c rest hc ih =>
      rw [lexemes_cons_of_not_isWordChar hc]
      exact List.isChain_cons.mpr ⟨fun _ _ h => not_wordChars_cons hc [] h.1, ih⟩
    | word w rest hne hw hrest ih =>
      rw [lexemes_word_append hne hw hrest]
      refine List.isChain_cons.mpr ⟨fun u hu h => ?_, ih⟩
      -- the next piece begins with the character that ends the word
      cases rest with
      | nil => cases hu
      | cons d rest =>
        obtain ⟨v, vs, hv⟩ := exists_cons_of_lexemes d rest
        rw [hv] at hu
        cases hu
        exact not_wordChars_cons (hrest d rfl) v h.2

theorem Segments.eq_lexemes {text : List Char} {ls : List (List Char)} (h : Segments text ls) :
    ls = lexemes text := by
  obtain ⟨rfl, hpiece, hmaximal⟩ := h
  induction ls with
  | nil => rfl
  | cons w ls ih =>
    obtain ⟨hw, hls⟩ := List.forall_mem_cons.mp hpiece
    obtain ⟨hnext, hchain⟩ := List.isChain_cons.mp hmaximal
    have ih := ih hls hchain
    rw [List.flatten_cons]
    rcases hw with ⟨c, rfl, hc⟩ | ⟨hne, hw⟩
    · rw [List.singleton_append, lexemes_cons_of_not_isWordChar hc, ← ih]
    · rw [lexemes_word_append hne hw, ← ih]
      intro d hd
      cases ls with
      | nil => cases hd
      | cons u ls =>
        rcases hls u List.mem_cons_self with ⟨c, rfl, hc⟩ | ⟨-, hu⟩
        · cases hd
          exact hc
        · exact absurd ⟨hw, hu⟩ (hnext u rfl)

/-- a text has its lexemes as its pieces, and no others -/
theorem segments_iff {text : List Char} {ls : List (List Char)} :
    Segments text ls ↔ ls = lexemes text :=
  ⟨Segments.eq_lexemes, fun h => h ▸ segments_lexemes text⟩

/-! ## what a piece is read as -/

/-- an operator or a parenthesis -/
theorem exists_symbol {c : Char} (h : isWordChar c = false) :
    (∃ op : Operator, c = op.symbol) ∨ c = '(' ∨ c = ')' := by
  unfold isWordChar at h
  cases ho : Operator.ofSymbol? c with
  | some op => exact Or.inl ⟨op, (Operator.symbol_of_ofSymbol? ho).symm⟩
  | none =>
    refine Or.inr ?_
    rw [ho] at h
    by_contra hc
    rw [not_or] at hc
    simp [hc.1, hc.2] at h

/-- a word that is neither an unsigned number nor a name -/
structure IsMalformed (w : List Char) : Prop where
  wordChars : WordChars w
  not_isUnsigned : Decimal.isUnsigned w = false
  not_isIdentifier : isIdentifier w = false

namespace Token

inductive Spells : List Char → Token → Prop
  | number {w : List Char} {v : Decimal} : Decimal.WritesUnsigned w v → Spells w (.number v)
  | identifier {w : List Char} : isIdentifier w = true → Spells w (.identifier (String.ofList w))
  | operator (op : Operator) : Spells [op.symbol] (.operator op)
  | opening : Spells ['('] .opening
  | closing : Spells [')'] .closing

theorem ofWord_eq_ok_iff {w : List Char} {t : Token} (hw : WordChars w) :
    ofWord w = .ok t ↔ Spells w t := by
  constructor
  · intro h
    rcases ofWord_eq_ok h with ⟨v, hv, rfl⟩ | ⟨hid, rfl⟩
    · exact .number (Decimal.ofUnsigned?_eq_some_iff.mp hv)
    · exact .identifier hid
  · intro h
    cases h with
    | number hv => exact ofWord_of_ofUnsigned? (Decimal.ofUnsigned?_eq_some_iff.mpr hv)
    | identifier hid => exact ofWord_of_isIdentifier hid
    | operator op => exact absurd hw (not_wordChars_cons (by cases op <;> rfl) [])
    | opening => exact absurd hw (not_wordChars_cons rfl [])
    | closing => exact absurd hw (not_wordChars_cons rfl [])

theorem ofWord_eq_error_iff {w : List Char} {e : Rejection} (hw : WordChars w) :
    ofWord w = .error e ↔
      IsMalformed w ∧ e = .invalidExpression (.malformedWord (String.ofList w)) := by
  unfold ofWord
  constructor
  · intro h
    split at h
    · cases h
    · next hv =>
      split at h
      · cases h
      · next hid =>
        cases h
        refine ⟨⟨hw, ?_, Bool.eq_false_of_not_eq_true hid⟩, rfl⟩
        rw [← Decimal.ofUnsigned?_isSome, hv]
        rfl
  · rintro ⟨⟨-, hu, hid⟩, rfl⟩
    rw [← Decimal.ofUnsigned?_isSome, Option.isSome_eq_false_iff, Option.isNone_iff_eq_none] at hu
    rw [hu, hid]
    rfl

/-- a symbol is always a token -/
theorem exists_spells_symbol {c : Char} (h : isWordChar c = false) : ∃ t, Spells [c] t := by
  rcases exists_symbol h with ⟨op, rfl⟩ | rfl | rfl
  · exact ⟨_, .operator op⟩
  · exact ⟨_, .opening⟩
  · exact ⟨_, .closing⟩

theorem Spells.ofLexeme_eq {w : List Char} {t : Token} (h : Spells w t) : ofLexeme w = .ok t := by
  cases h with
  | number hv =>
    rw [ofLexeme_word hv.isWord, ofWord_eq_ok_iff hv.isWord.isWordChar]
    exact .number hv
  | identifier hid =>
    have hw := isWord_of_isIdentifier hid
    rw [ofLexeme_word hw, ofWord_eq_ok_iff hw.isWordChar]
    exact .identifier hid
  | operator op => cases op <;> rfl
  | opening => rfl
  | closing => rfl

theorem ofLexeme_of_isMalformed {w : List Char} (h : IsMalformed w) :
    ofLexeme w = .error (.invalidExpression (.malformedWord (String.ofList w))) := by
  rw [ofLexeme_of_forall h.wordChars, ofWord_eq_error_iff h.wordChars]
  exact ⟨h, rfl⟩

theorem Spells.not_isMalformed {w : List Char} {t : Token} (h : Spells w t) : ¬IsMalformed w := by
  intro hm
  have hlexeme := h.ofLexeme_eq
  rw [ofLexeme_of_isMalformed hm] at hlexeme
  cases hlexeme

end Token

end DecimalCalculator
