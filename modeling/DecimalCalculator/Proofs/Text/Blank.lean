import DecimalCalculator.Proofs.Text.Cut
import DecimalCalculator.Text.Blank

/-!
# Trimming around a character

A character that is no blank splits a line into two parts, and trimming the line trims each part
at its outer end (`trim_append_cons`). The order of the two ends does not matter
(`trim_trimStart`, `trim_trimEnd`).
-/

namespace DecimalCalculator

theorem isBlank_of_isAlpha {c : Char} (h : c.isAlpha = true) : isBlank c = false := by
  simp only [Char.isAlpha, Char.isUpper, Char.isLower, Bool.or_eq_true, decide_eq_true_eq,
    UInt32.le_iff_toNat_le, Bool.and_eq_true] at h
  simp only [isBlank, blankRanges, List.any_cons, List.any_nil, Bool.or_eq_false_iff,
    decide_eq_false_iff_not, Bool.and_eq_false_iff, Char.toNat]
  simp at h ⊢
  omega

theorem isBlank_of_isDigit {c : Char} (h : c.isDigit = true) : isBlank c = false := by
  simp only [Char.isDigit, decide_eq_true_eq, UInt32.le_iff_toNat_le, Bool.and_eq_true] at h
  simp only [isBlank, blankRanges, List.any_cons, List.any_nil, Bool.or_eq_false_iff,
    decide_eq_false_iff_not, Bool.and_eq_false_iff, Char.toNat]
  simp at h ⊢
  omega

theorem trimStart_append_cons {c : Char} (hc : isBlank c = false) (l r : List Char) :
    trimStart (l ++ c :: r) = trimStart l ++ c :: r := dropWhile_append_cons hc l r

theorem trimEnd_append_cons {c : Char} (hc : isBlank c = false) (l r : List Char) :
    trimEnd (l ++ c :: r) = l ++ c :: trimEnd r := rdropWhile_append_cons hc l r

theorem trim_append_cons {c : Char} (hc : isBlank c = false) (l r : List Char) :
    trim (l ++ c :: r) = trimStart l ++ c :: trimEnd r := by
  unfold trim
  rw [trimStart_append_cons hc, trimEnd_append_cons hc]

theorem trim_trimStart (l : List Char) : trim (trimStart l) = trim l := by
  unfold trim trimStart
  rw [List.dropWhile_idempotent]

theorem trimEnd_trimEnd (l : List Char) : trimEnd (trimEnd l) = trimEnd l :=
  List.rdropWhile_idempotent isBlank l

theorem trim_trimEnd (l : List Char) : trim (trimEnd l) = trim l := by
  have hsplit : l.takeWhile isBlank ++ trimStart l = l := List.takeWhile_append_dropWhile
  cases hs : trimStart l with
  | nil =>
    have hall : ∀ a ∈ l, isBlank a = true := List.dropWhile_eq_nil_iff.mp hs
    have hend : trimEnd l = [] := List.rdropWhile_eq_nil_iff.mpr hall
    unfold trim
    rw [hend, hs]
    rfl
  | cons c r =>
    -- the first character that is no blank stays first, whichever end is trimmed first
    have hc : isBlank c = false := by
      have h := List.head?_dropWhile_not isBlank l
      rw [show l.dropWhile isBlank = c :: r from hs] at h
      simpa using h
    rw [← hsplit, hs, trimEnd_append_cons hc, trim_append_cons hc, trim_append_cons hc,
      trimEnd_trimEnd]

/-- nothing is trimmed off a text without blanks -/
theorem trim_of_forall {l : List Char} (h : ∀ c ∈ l, isBlank c = false) : trim l = l := by
  have hstart : trimStart l = l := by
    cases l with
    | nil => rfl
    | cons c l =>
      rw [trimStart_cons, h c List.mem_cons_self]
      rfl
  have hend : trimEnd l = l := by
    refine List.rdropWhile_eq_self_iff.mpr fun hne => ?_
    rw [h _ (List.getLast_mem hne)]
    exact Bool.false_ne_true
  unfold trim
  rw [hstart, hend]

theorem trim_cons_of_isBlank {c : Char} (h : isBlank c = true) (l : List Char) :
    trim (c :: l) = trim l := by
  unfold trim
  rw [trimStart_cons, if_pos h]

theorem trim_concat_of_isBlank {c : Char} (h : isBlank c = true) (l : List Char) :
    trim (l ++ [c]) = trim l := by
  have hend : trimEnd (l ++ [c]) = trimEnd l := List.rdropWhile_concat_pos isBlank l c h
  rw [← trim_trimEnd, hend, trim_trimEnd]

theorem mem_of_mem_trim {c : Char} {l : List Char} (h : c ∈ trim l) : c ∈ l :=
  (List.dropWhile_sublist isBlank).subset
    ((List.rdropWhile_prefix isBlank (trimStart l)).subset h)

theorem mem_trimEnd_iff {c : Char} (hc : isBlank c = false) {l : List Char} :
    c ∈ trimEnd l ↔ c ∈ l := by
  constructor
  · intro h
    exact (List.rdropWhile_prefix isBlank l).subset h
  · intro h
    obtain ⟨a, b, rfl⟩ := List.append_of_mem h
    rw [trimEnd_append_cons hc]
    simp

theorem mem_trim_iff {c : Char} (hc : isBlank c = false) {l : List Char} : c ∈ trim l ↔ c ∈ l := by
  refine ⟨mem_of_mem_trim, fun h => ?_⟩
  obtain ⟨a, b, rfl⟩ := List.append_of_mem h
  rw [trim_append_cons hc]
  simp

end DecimalCalculator
