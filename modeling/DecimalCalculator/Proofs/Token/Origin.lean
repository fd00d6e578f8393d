import DecimalCalculator.LineKind
import DecimalCalculator.Token.Scan
import DecimalCalculator.Proofs.Outcome
import DecimalCalculator.Proofs.Token.Single

/-!
# Where tokens come from

Every token of a text is read from a lexeme, and the characters of a lexeme stand in the text, but
for the sign that a run of signs is replaced by. So an operator other than a sign stands in the
text (`symbol_mem_of_ofText`), and a number has no negative scale (`scale_nonneg_of_ofText`). And
every lexeme is read as a token, so all characters of the text are those of tokens or blanks
(`mem_of_ofText`).
-/

namespace DecimalCalculator

/-! ## characters -/

theorem mem_joinSign {a c : Char} {cs : List Char} (h : a ∈ joinSign c cs) :
    a = c ∨ a ∈ cs ∨ isSign a = true := by
  cases cs with
  | nil => exact Or.inl (List.mem_singleton.mp h)
  | cons d rest =>
    replace h : a ∈ if (isSign c && isSign d) = true then signProduct c d :: rest
      else c :: d :: rest := h
    split at h
    · rcases List.mem_cons.mp h with rfl | h
      · refine Or.inr (Or.inr ?_)
        unfold signProduct
        split
        · rfl
        · rfl
      · exact Or.inr (Or.inl (List.mem_cons_of_mem d h))
    · exact (List.mem_cons.mp h).imp_right Or.inl

theorem mem_collapseSigns {a : Char} {cs : List Char} (h : a ∈ collapseSigns cs) :
    a ∈ cs ∨ isSign a = true := by
  induction cs with
  | nil => cases h
  | cons c cs ih =>
    rw [collapseSigns_cons] at h
    rcases mem_joinSign h with rfl | h | h
    · exact Or.inl List.mem_cons_self
    · exact (ih h).imp_left (List.mem_cons_of_mem c)
    · exact Or.inr h

theorem eq_of_normalize {text dense : List Char} (h : normalize text = .ok dense) :
    dense = collapseSigns (dropBlanks text) := by
  cases hd : hasDoubled (dropBlanks text) with
  | false =>
    rw [normalize_of_not_hasDoubled hd] at h
    cases h
    rfl
  | true =>
    rw [normalize_of_hasDoubled hd] at h
    cases h

theorem mem_of_normalize {a : Char} {text dense : List Char} (h : normalize text = .ok dense)
    (ha : a ∈ dense) : a ∈ text ∨ isSign a = true := by
  rw [eq_of_normalize h] at ha
  exact (mem_collapseSigns ha).imp_left fun hm => (mem_dropBlanks_iff.mp hm).1

/-! ## lexemes -/

namespace Token

/-- a number or a name -/
def isWord : Token → Bool
  | number _ | identifier _ => true
  | _ => false

/-- a scan that refuses nothing reads every lexeme -/
theorem collect_eq_ok_iff {ws : List (List Char)} {ts : List Token} :
    collect (ofLexemes ws) = .ok ts ↔ ws.map ofLexeme = ts.map .ok := by
  induction ws generalizing ts with
  | nil =>
    constructor
    · intro h
      cases h
      rfl
    · intro h
      rw [List.map_eq_nil_iff.mp h.symm]
      rfl
  | cons w ws ih =>
    cases hw : ofLexeme w with
    | error e =>
      rw [ofLexemes_cons_of_error hw, collect_error_cons, List.map_cons, hw]
      refine iff_of_false nofun fun h => ?_
      obtain ⟨t, ts', -, ht, -⟩ := List.map_eq_cons_iff.mp h.symm
      cases ht
    | ok t =>
      rw [ofLexemes_cons_of_ok hw, collect_ok_cons, map_eq_ok_iff, List.map_cons, hw]
      constructor
      · rintro ⟨ts', hts, rfl⟩
        rw [ih.mp hts, List.map_cons]
      · intro h
        obtain ⟨t', ts', rfl, ht, hts⟩ := List.map_eq_cons_iff.mp h.symm
        cases ht
        exact ⟨ts', ih.mpr hts.symm, rfl⟩

theorem exists_lexeme_of_mem_collect {ws : List (List Char)} {ts : List Token} {t : Token}
    (h : collect (ofLexemes ws) = .ok ts) (ht : t ∈ ts) : ∃ w ∈ ws, ofLexeme w = .ok t := by
  have hm : .ok t ∈ ws.map ofLexeme := by
    rw [collect_eq_ok_iff.mp h]
    exact List.mem_map_of_mem ht
  exact List.mem_map.mp hm

theorem ofWord_eq_ok {w : List Char} {t : Token} (h : ofWord w = .ok t) :
    (∃ v, Decimal.ofUnsigned? w = some v ∧ t = .number v) ∨
      isIdentifier w = true ∧ t = .identifier (String.ofList w) := by
  unfold ofWord at h
  split at h
  · next v hv =>
    cases h
    exact Or.inl ⟨v, hv, rfl⟩
  · split at h
    · next hid =>
      cases h
      exact Or.inr ⟨hid, rfl⟩
    · cases h

/-- a lexeme of an operator is its symbol -/
theorem ofLexeme_eq_operator {w : List Char} {op : Operator}
    (h : ofLexeme w = .ok (.operator op)) : w = [op.symbol] := by
  have hword : ∀ u : List Char, ofWord u ≠ .ok (.operator op) := by
    intro u hu
    rcases ofWord_eq_ok hu with ⟨v, _, ht⟩ | ⟨_, ht⟩
    · cases ht
    · cases ht
  unfold ofLexeme at h
  split at h
  · cases h
  · cases h
  · split at h
    · next ho =>
      cases h
      rw [Operator.symbol_of_ofSymbol? ho]
    · exact absurd h (hword _)
  · exact absurd h (hword _)

/-- what is read from a word is a word -/
theorem ofWord_of_ofLexeme {w : List Char} {t : Token} (h : ofLexeme w = .ok t)
    (ht : t.isWord = true) : ofWord w = .ok t := by
  unfold ofLexeme at h
  split at h
  · cases h
    cases ht
  · cases h
    cases ht
  · split at h
    · cases h
      cases ht
    · exact h
  · exact h

theorem ofLexeme_eq_number {w : List Char} {v : Decimal} (h : ofLexeme w = .ok (.number v)) :
    Decimal.ofUnsigned? w = some v := by
  rcases ofWord_eq_ok (ofWord_of_ofLexeme h rfl) with ⟨v', hv', ht⟩ | ⟨_, ht⟩
  · cases ht
    exact hv'
  · cases ht

/-! ## tokens -/

theorem mem_dropLeadingSign {ts ts' : List Token} {t : Token}
    (h : dropLeadingSign ts = .ok ts') (ht : t ∈ ts') :
    t ∈ ts ∨ ∃ v, .number v ∈ ts ∧ t = .number (-v) := by
  unfold dropLeadingSign at h
  split at h
  · cases h
    exact Or.inl (List.mem_cons_of_mem _ ht)
  · next v rest =>
    cases h
    rcases List.mem_cons.mp ht with rfl | ht
    · exact Or.inr ⟨v, List.mem_cons_of_mem _ List.mem_cons_self, rfl⟩
    · exact Or.inl (List.mem_cons_of_mem _ (List.mem_cons_of_mem _ ht))
  · cases h
  · cases h
    exact Or.inl ht

/-- the lexemes that the tokens of a text are read from -/
theorem exists_lexemes_of_ofText {text : List Char} {ts : List Token} (h : ofText text = .ok ts) :
    ∃ dense scanned, normalize text = .ok dense ∧ dropLeadingSign scanned = .ok ts ∧
      ∀ t ∈ scanned, ∃ w ∈ lexemes dense, ofLexeme w = .ok t := by
  obtain ⟨dense, hdense, h⟩ := bind_eq_ok_iff.mp h
  obtain ⟨scanned, hscanned, h⟩ := bind_eq_ok_iff.mp h
  exact ⟨dense, scanned, hdense, h, fun t ht => exists_lexeme_of_mem_collect hscanned ht⟩

/-- an operator stands in the text, or is a sign -/
theorem symbol_mem_of_ofText {text : List Char} {ts : List Token} {op : Operator}
    (h : ofText text = .ok ts) (hop : .operator op ∈ ts) :
    op.symbol ∈ text ∨ isSign op.symbol = true := by
  obtain ⟨dense, scanned, hdense, hdrop, hlexeme⟩ := exists_lexemes_of_ofText h
  have hmem : .operator op ∈ scanned := by
    rcases mem_dropLeadingSign hdrop hop with hm | ⟨v, _, ht⟩
    · exact hm
    · cases ht
  obtain ⟨w, hw, ht⟩ := hlexeme _ hmem
  have hin : op.symbol ∈ (lexemes dense).flatten :=
    List.mem_flatten.mpr ⟨w, hw, by rw [ofLexeme_eq_operator ht]; exact List.mem_cons_self⟩
  rw [flatten_lexemes] at hin
  exact mem_of_normalize hdense hin

theorem scale_nonneg_of_ofText {text : List Char} {ts : List Token} {v : Decimal}
    (h : ofText text = .ok ts) (hv : .number v ∈ ts) : 0 ≤ v.scale := by
  obtain ⟨dense, scanned, -, hdrop, hlexeme⟩ := exists_lexemes_of_ofText h
  have hscanned : ∀ u, .number u ∈ scanned → 0 ≤ u.scale := by
    intro u hu
    obtain ⟨w, -, ht⟩ := hlexeme _ hu
    exact Decimal.scale_nonneg_of_ofUnsigned? (ofLexeme_eq_number ht)
  rcases mem_dropLeadingSign hdrop hv with hm | ⟨u, hu, ht⟩
  · exact hscanned v hm
  · cases ht
    exact hscanned u hu

/-! ## the characters of a text with tokens -/

theorem mem_joinSign_of_mem {a c : Char} {cs : List Char} (ha : isSign a = false)
    (h : a ∈ c :: cs) : a ∈ joinSign c cs := by
  cases cs with
  | nil => exact h
  | cons d rest =>
    show a ∈ if (isSign c && isSign d) = true then signProduct c d :: rest else c :: d :: rest
    split
    · next hcd =>
      obtain ⟨hc, hd⟩ := Bool.and_eq_true_iff.mp hcd
      have hac : a ≠ c := fun e => by rw [e, hc] at ha; cases ha
      have had : a ≠ d := fun e => by rw [e, hd] at ha; cases ha
      exact List.mem_cons_of_mem _
        ((List.mem_cons.mp ((List.mem_cons.mp h).resolve_left hac)).resolve_left had)
    · exact h

theorem mem_collapseSigns_of_mem {a : Char} {cs : List Char} (ha : isSign a = false)
    (h : a ∈ cs) : a ∈ collapseSigns cs := by
  induction cs with
  | nil => cases h
  | cons c cs ih =>
    rw [collapseSigns_cons]
    refine mem_joinSign_of_mem ha ?_
    rcases List.mem_cons.mp h with rfl | h
    · exact List.mem_cons_self
    · exact List.mem_cons_of_mem c (ih h)

theorem mem_of_ofWord {w : List Char} {t : Token} (h : ofWord w = .ok t) :
    ∀ c ∈ w, isExpressionChar c = true ∨ c = '.' := by
  intro c hc
  rcases ofWord_eq_ok h with ⟨v, hv, -⟩ | ⟨hid, -⟩
  · obtain ⟨-, -, -, -, hall⟩ :=
      Decimal.exists_cons_of_isUnsigned (Decimal.isUnsigned_of_ofUnsigned? hv)
    exact (hall c hc).imp_left fun hd => by simp [isExpressionChar, Char.isAlphanum, hd]
  · have ha := List.all_eq_true.mp (Bool.and_eq_true_iff.mp hid).2 c hc
    exact Or.inl (by simp [isExpressionChar, Char.isAlphanum, ha])

theorem mem_of_ofLexeme {w : List Char} {t : Token} (h : ofLexeme w = .ok t) :
    ∀ c ∈ w, isExpressionChar c = true ∨ c = '.' := by
  unfold ofLexeme at h
  split at h
  · intro c hc
    rw [List.mem_singleton.mp hc]
    exact Or.inl rfl
  · intro c hc
    rw [List.mem_singleton.mp hc]
    exact Or.inl rfl
  · split at h
    · next op ho =>
      intro c hc
      rw [List.mem_singleton.mp hc, ← Operator.symbol_of_ofSymbol? ho]
      cases op <;> exact Or.inl rfl
    · exact mem_of_ofWord h
  · exact mem_of_ofWord h

theorem exists_token_of_mem {ws : List (List Char)} {ts : List Token} {w : List Char}
    (h : collect (ofLexemes ws) = .ok ts) (hw : w ∈ ws) : ∃ t, ofLexeme w = .ok t := by
  have hm : ofLexeme w ∈ ts.map .ok := by
    rw [← collect_eq_ok_iff.mp h]
    exact List.mem_map_of_mem hw
  obtain ⟨t, -, ht⟩ := List.mem_map.mp hm
  exact ⟨t, ht.symm⟩

/-- a text with tokens is made of their characters, and of blanks -/
theorem mem_of_ofText {text : List Char} {ts : List Token} (h : ofText text = .ok ts) :
    ∀ c ∈ text, isBlank c = true ∨ isExpressionChar c = true ∨ c = '.' := by
  obtain ⟨dense, hdense, h⟩ := bind_eq_ok_iff.mp h
  obtain ⟨scanned, hscanned, -⟩ := bind_eq_ok_iff.mp h
  intro c hc
  by_cases hb : isBlank c = true
  · exact Or.inl hb
  refine Or.inr ?_
  by_cases hs : isSign c = true
  · rcases isSign_iff.mp hs with rfl | rfl
    · exact Or.inl rfl
    · exact Or.inl rfl
  · have hin : c ∈ dense := by
      rw [eq_of_normalize hdense]
      exact mem_collapseSigns_of_mem (Bool.eq_false_of_not_eq_true hs)
        (mem_dropBlanks_iff.mpr ⟨hc, Bool.eq_false_of_not_eq_true hb⟩)
    rw [← flatten_lexemes dense] at hin
    obtain ⟨w, hw, hcw⟩ := List.mem_flatten.mp hin
    obtain ⟨t, ht⟩ := exists_token_of_mem hscanned hw
    exact mem_of_ofLexeme ht c hcw

theorem equals_not_mem_of_ofText {text : List Char} {ts : List Token} (h : ofText text = .ok ts) :
    '=' ∉ text := by
  intro hm
  rcases mem_of_ofText h '=' hm with h | h | h
  · cases h
  · cases h
  · cases h

end Token

end DecimalCalculator
