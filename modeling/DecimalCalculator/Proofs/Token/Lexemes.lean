import DecimalCalculator.Token.Scan

/-!
# How a text is cut

A character that is no word character is a lexeme of its own (`lexemes_cons_of_not_isWordChar`), and
a word ends where the word characters do (`lexemes_word_append`).
-/

namespace DecimalCalculator

theorem exists_cons_of_lexemes (c : Char) (cs : List Char) :
    ∃ w ws, lexemes (c :: cs) = (c :: w) :: ws := by
  rw [lexemes_cons]
  unfold joinLexeme
  split
  · split
    · exact ⟨_, _, rfl⟩
    · exact ⟨_, _, rfl⟩
  · exact ⟨_, _, rfl⟩

theorem joinLexeme_join {c d : Char} (hc : isWordChar c = true) (hd : isWordChar d = true)
    (w : List Char) (ws : List (List Char)) :
    joinLexeme c ((d :: w) :: ws) = (c :: d :: w) :: ws :=
  if_pos (by rw [hc, hd]; rfl)

theorem joinLexeme_of_not {c d : Char} (h : ¬(isWordChar c = true ∧ isWordChar d = true))
    (w : List Char) (ws : List (List Char)) :
    joinLexeme c ((d :: w) :: ws) = [c] :: (d :: w) :: ws :=
  if_neg (by simpa using h)

/-- a character stays alone if it is no word character, or none follows -/
theorem lexemes_cons_alone {c : Char} {cs : List Char}
    (h : ∀ d ∈ cs.head?, ¬(isWordChar c = true ∧ isWordChar d = true)) :
    lexemes (c :: cs) = [c] :: lexemes cs := by
  cases cs with
  | nil => rfl
  | cons d rest =>
    obtain ⟨w, ws, hws⟩ := exists_cons_of_lexemes d rest
    rw [lexemes_cons, hws, joinLexeme_of_not (h d rfl)]

theorem lexemes_cons_of_not_isWordChar {c : Char} (h : isWordChar c = false) (cs : List Char) :
    lexemes (c :: cs) = [c] :: lexemes cs :=
  lexemes_cons_alone fun _ _ hcd => by rw [h] at hcd; exact Bool.false_ne_true hcd.1

theorem lexemes_word_append {w cs : List Char} (hne : w ≠ [])
    (hw : ∀ c ∈ w, isWordChar c = true) (hcs : ∀ d ∈ cs.head?, isWordChar d = false) :
    lexemes (w ++ cs) = w :: lexemes cs := by
  induction w with
  | nil => exact absurd rfl hne
  | cons c w ih =>
    obtain ⟨hc, hw⟩ := List.forall_mem_cons.mp hw
    cases w with
    | nil =>
      refine lexemes_cons_alone fun d hd hcd => ?_
      rw [hcs d hd] at hcd
      exact Bool.false_ne_true hcd.2
    | cons d w =>
      rw [List.cons_append, lexemes_cons, ih (List.cons_ne_nil d w) hw,
        joinLexeme_join hc (hw d List.mem_cons_self)]

end DecimalCalculator
