import Mathlib
import DecimalCalculator.Token.Scan
import DecimalCalculator.Proofs.Assignment
import DecimalCalculator.Proofs.Decimal.Plain
import DecimalCalculator.Proofs.Token.Lexemes

/-!
# Texts of one token

A text without operators, parentheses and blanks is one word (`IsWord`), and stays one behind a
sign. So a number literal is one token, the number that an assignment of the same text would bind
(`Token.ofText_of_ofLiteral?`), and so is a name (`Token.ofText_of_isIdentifier`).
-/

namespace DecimalCalculator

/-! ## words -/

/-- one or more characters that are neither blanks nor tokens of their own -/
structure IsWord (w : List Char) : Prop where
  ne_nil : w ≠ []
  isWordChar : ∀ c ∈ w, isWordChar c = true
  not_isBlank : ∀ c ∈ w, isBlank c = false

theorem isWordChar_of_isAlphanum {c : Char} (h : c.isAlphanum = true) : isWordChar c = true := by
  have hsymbol : Operator.ofSymbol? c = none := by
    cases ho : Operator.ofSymbol? c with
    | none => rfl
    | some op =>
      rw [← Operator.symbol_of_ofSymbol? ho] at h
      cases op <;> cases h
  have hopening : c ≠ '(' := by
    rintro rfl
    cases h
  have hclosing : c ≠ ')' := by
    rintro rfl
    cases h
  unfold isWordChar
  simp [hsymbol, hopening, hclosing]

theorem isWord_of_isIdentifier {w : List Char} (h : isIdentifier w = true) : IsWord w := by
  obtain ⟨hne, hall⟩ := Bool.and_eq_true_iff.mp h
  have halpha : ∀ c ∈ w, c.isAlpha = true := List.all_eq_true.mp hall
  refine ⟨by simpa using hne, fun c hc => ?_, fun c hc => isBlank_of_isAlpha (halpha c hc)⟩
  exact isWordChar_of_isAlphanum (by rw [Char.isAlphanum, halpha c hc, Bool.true_or])

theorem isWord_of_isUnsigned {u : List Char} (h : Decimal.isUnsigned u = true) : IsWord u := by
  obtain ⟨c, cs, rfl, -, hall⟩ := Decimal.exists_cons_of_isUnsigned h
  refine ⟨List.cons_ne_nil c cs, fun a ha => ?_, fun a ha => ?_⟩
  · rcases hall a ha with hd | rfl
    · exact isWordChar_of_isAlphanum (by rw [Char.isAlphanum, hd, Bool.or_true])
    · rfl
  · rcases hall a ha with hd | rfl
    · exact isBlank_of_isDigit hd
    · rfl

/-! ## signs -/

theorem isSign_iff {c : Char} : isSign c = true ↔ c = '+' ∨ c = '-' := by
  unfold isSign
  rw [Bool.or_eq_true, beq_iff_eq, beq_iff_eq]

theorem isBlank_of_isSign {c : Char} (h : isSign c = true) : isBlank c = false := by
  rcases isSign_iff.mp h with rfl | rfl
  · rfl
  · rfl

theorem isWordChar_of_isSign {c : Char} (h : isSign c = true) : isWordChar c = false := by
  rcases isSign_iff.mp h with rfl | rfl
  · rfl
  · rfl

theorem isSign_of_isWordChar {c : Char} (h : isWordChar c = true) : isSign c = false := by
  refine Bool.eq_false_of_not_eq_true fun hs => ?_
  rw [isWordChar_of_isSign hs] at h
  exact Bool.false_ne_true h

/-- only operators are doubled -/
theorem isDoubled_of_isWordChar {a : Char} (h : isWordChar a = true) (b : Char) :
    isDoubled a b = false := by
  have hstar : a ≠ '*' := by
    rintro rfl
    cases h
  have hslash : a ≠ '/' := by
    rintro rfl
    cases h
  simp [isDoubled, hstar, hslash]

theorem isDoubled_of_isSign {a : Char} (h : isSign a = true) (b : Char) :
    isDoubled a b = false := by
  rcases isSign_iff.mp h with rfl | rfl
  · simp [isDoubled]
  · simp [isDoubled]

theorem hasDoubled_of_forall {w : List Char} (h : ∀ c ∈ w, isWordChar c = true) :
    hasDoubled w = false := by
  induction w with
  | nil => rfl
  | cons a w ih =>
    cases w with
    | nil => rfl
    | cons b w =>
      rw [hasDoubled_cons_cons, isDoubled_of_isWordChar (h a List.mem_cons_self),
        ih fun c hc => h c (List.mem_cons_of_mem a hc)]
      rfl

theorem collapseSigns_of_forall {w : List Char} (h : ∀ c ∈ w, isWordChar c = true) :
    collapseSigns w = w := by
  induction w with
  | nil => rfl
  | cons a w ih =>
    rw [collapseSigns_cons, ih fun c hc => h c (List.mem_cons_of_mem a hc),
      joinSign_of_not_isSign (isSign_of_isWordChar (h a List.mem_cons_self))]

theorem normalize_of_dropBlanks {t d : List Char} (ht : dropBlanks t = d)
    (hd : hasDoubled d = false) : normalize t = .ok (collapseSigns d) := by
  subst ht
  exact normalize_of_not_hasDoubled hd

theorem normalize_word {t w : List Char} (ht : dropBlanks t = w) (hw : IsWord w) :
    normalize t = .ok w := by
  rw [normalize_of_dropBlanks ht (hasDoubled_of_forall hw.isWordChar),
    collapseSigns_of_forall hw.isWordChar]

/-- one sign in front of a word stays as it is -/
theorem normalize_sign_word {s : Char} {t w : List Char} (ht : dropBlanks t = s :: w)
    (hs : isSign s = true) (hw : IsWord w) : normalize t = .ok (s :: w) := by
  obtain ⟨d, ds, rfl⟩ := List.exists_cons_of_ne_nil hw.ne_nil
  have hd : isSign d = false := isSign_of_isWordChar (hw.isWordChar d List.mem_cons_self)
  have hdoubled : hasDoubled (s :: d :: ds) = false := by
    rw [hasDoubled_cons_cons, isDoubled_of_isSign hs, hasDoubled_of_forall hw.isWordChar]
    rfl
  rw [normalize_of_dropBlanks ht hdoubled, collapseSigns_cons,
    collapseSigns_of_forall hw.isWordChar, joinSign_cons_of_not_isSign hd]

/-! ## lexemes -/

theorem lexemes_word {w : List Char} (hw : IsWord w) : lexemes w = [w] := by
  have happend : lexemes (w ++ []) = [w] :=
    lexemes_word_append hw.ne_nil hw.isWordChar fun _ h => by cases h
  rwa [List.append_nil] at happend

theorem lexemes_sign_word {s : Char} {w : List Char} (hs : isSign s = true) (hw : IsWord w) :
    lexemes (s :: w) = [[s], w] := by
  rw [lexemes_cons_of_not_isWordChar (isWordChar_of_isSign hs), lexemes_word hw]

namespace Token

/-- a word is read as a word, also if it is a single character -/
theorem ofLexeme_of_forall {w : List Char} (hw : ∀ c ∈ w, isWordChar c = true) :
    ofLexeme w = ofWord w := by
  unfold ofLexeme
  split
  · cases hw '(' List.mem_cons_self
  · cases hw ')' List.mem_cons_self
  · next c _ _ =>
    have hc := hw c List.mem_cons_self
    cases ho : Operator.ofSymbol? c with
    | none => rfl
    | some op =>
      unfold isWordChar at hc
      rw [ho] at hc
      cases hc
  · rfl

theorem ofLexeme_word {w : List Char} (hw : IsWord w) : ofLexeme w = ofWord w :=
  ofLexeme_of_forall hw.isWordChar

theorem collect_scan_word {w : List Char} {t : Token} (hw : IsWord w) (h : ofWord w = .ok t) :
    collect (scan w) = .ok [t] := by
  unfold scan
  rw [lexemes_word hw, ofLexemes_cons_of_ok ((ofLexeme_word hw).trans h)]
  rfl

theorem collect_scan_sign_word {s : Char} {w : List Char} {op : Operator} {t : Token}
    (hs : isSign s = true) (hop : ofLexeme [s] = .ok (.operator op)) (hw : IsWord w)
    (h : ofWord w = .ok t) : collect (scan (s :: w)) = .ok [.operator op, t] := by
  unfold scan
  rw [lexemes_sign_word hs hw, ofLexemes_cons_of_ok hop,
    ofLexemes_cons_of_ok ((ofLexeme_word hw).trans h)]
  rfl

/-! ## numbers and names -/

theorem ofWord_of_ofUnsigned? {w : List Char} {v : Decimal} (h : Decimal.ofUnsigned? w = some v) :
    ofWord w = .ok (.number v) := by
  unfold ofWord
  rw [h]

theorem ofWord_of_isIdentifier {w : List Char} (h : isIdentifier w = true) :
    ofWord w = .ok (.identifier (String.ofList w)) := by
  unfold ofWord
  cases hu : Decimal.ofUnsigned? w with
  | some v =>
    have hnone := Decimal.ofLiteral?_of_isIdentifier h
    rw [Decimal.ofLiteral?_of_unsigned hu] at hnone
    cases hnone
  | none => exact if_pos h

theorem ofText_of_collect {t d : List Char} {ts : List Token} (hn : normalize t = .ok d)
    (hc : collect (scan d) = .ok ts) : ofText t = dropLeadingSign ts := by
  unfold ofText
  rw [hn]
  show (collect (scan d) >>= dropLeadingSign) = _
  rw [hc]
  rfl

/-- the blanks of a literal stand in front of its digits -/
theorem dropBlanks_of_ofUnsigned? {cs : List Char} {v : Decimal}
    (h : Decimal.ofUnsigned? (trimStart cs) = some v) : dropBlanks cs = trimStart cs := by
  have hw := isWord_of_isUnsigned (Decimal.isUnsigned_of_ofUnsigned? h)
  rw [← dropBlanks_trimStart, dropBlanks_of_forall hw.not_isBlank]

/-- a literal is the token of the number that an assignment reads -/
theorem ofText_of_ofLiteral? {t : List Char} {v : Decimal} (h : Decimal.ofLiteral? t = some v) :
    ofText t = .ok [.number v] := by
  cases t with
  | nil => cases h
  | cons s rest =>
    by_cases hs : s = '+' ∨ s = '-'
    · have hblanks : dropBlanks (s :: rest) = s :: dropBlanks rest :=
        dropBlanks_cons_of_not_isBlank (isBlank_of_isSign (isSign_iff.mpr hs)) rest
      rcases hs with rfl | rfl
      · have hu : Decimal.ofUnsigned? (trimStart rest) = some v := h
        have hw := isWord_of_isUnsigned (Decimal.isUnsigned_of_ofUnsigned? hu)
        rw [dropBlanks_of_ofUnsigned? hu] at hblanks
        exact ofText_of_collect (normalize_sign_word hblanks rfl hw)
          (collect_scan_sign_word rfl rfl hw (ofWord_of_ofUnsigned? hu))
      · have hmap : (Decimal.ofUnsigned? (trimStart rest)).map Decimal.neg = some v := h
        obtain ⟨u, hu, rfl⟩ := Option.map_eq_some_iff.mp hmap
        have hw := isWord_of_isUnsigned (Decimal.isUnsigned_of_ofUnsigned? hu)
        rw [dropBlanks_of_ofUnsigned? hu] at hblanks
        exact ofText_of_collect (normalize_sign_word hblanks rfl hw)
          (collect_scan_sign_word rfl rfl hw (ofWord_of_ofUnsigned? hu))
    · have hdrop : Decimal.dropSign (s :: rest) = s :: rest := if_neg hs
      have hminus : (s :: rest).head? ≠ some '-' := fun e => hs (Or.inr (Option.some.inj e))
      unfold Decimal.ofLiteral? at h
      rw [if_neg hminus, hdrop] at h
      have hw := isWord_of_isUnsigned (Decimal.isUnsigned_of_ofUnsigned? h)
      exact ofText_of_collect (normalize_word (dropBlanks_of_ofUnsigned? h) hw)
        (collect_scan_word hw (ofWord_of_ofUnsigned? h))

theorem ofText_of_isIdentifier {w : List Char} (h : isIdentifier w = true) :
    ofText w = .ok [.identifier (String.ofList w)] := by
  have hw := isWord_of_isIdentifier h
  exact ofText_of_collect (normalize_word (dropBlanks_of_forall hw.not_isBlank) hw)
    (collect_scan_word hw (ofWord_of_isIdentifier h))

end Token

end DecimalCalculator
