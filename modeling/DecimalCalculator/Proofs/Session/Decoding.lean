import DecimalCalculator.Proofs.Session.Lines
import DecimalCalculator.Proofs.Text.Lossy

/-!
# Decoding line by line

Reading until the source ends gives the bytes cut behind each newline byte (`yields_iff`). A
newline byte is never a part of another character, and it ends every part that is invalid, so it
is decoded to a newline character whatever stands around it, and nothing else is
(`decode_append_newline`, `newline_not_mem_decode`). So the cuts of the bytes are the cuts of the
whole text (`cutBehind_decode`), and it makes no difference whether lines are decoded one by one.
-/

namespace DecimalCalculator

/-! ## reading to the end -/

/-- the lines that reading gives one after another, until the source ends -/
inductive Source.Yields : Source → List (List UInt8) → Prop
  | ended {s : Source} (h : s.next = .ended) : Yields s []
  | line {s rest : Source} {raw : List UInt8} {raws : List (List UInt8)}
    (h : s.next = .line raw rest) (hrest : Yields rest raws) : Yields s (raw :: raws)

theorem cutBehind_rawLines (bytes : List UInt8) : CutBehind newline bytes (rawLines bytes) := by
  induction hn : bytes.length using Nat.strong_induction_on generalizing bytes with
  | h n ih =>
    by_cases h : newline ∈ bytes
    · obtain ⟨l, rest, rfl, hl⟩ := List.eq_append_cons_of_mem h
      rw [rawLines_append hl]
      rw [List.length_append, List.length_cons] at hn
      exact .cons hl (ih rest.length (by omega) rest rfl)
    · cases bytes with
      | nil => exact .nil
      | cons b bytes =>
        rw [rawLines_of_not_mem h (List.cons_ne_nil _ _)]
        exact .last (List.cons_ne_nil _ _) h

namespace Source.Yields

variable {s : Source} {raws : List (List UInt8)}

theorem lines_eq (h : s.Yields raws) : s.fails = false ∧ s.lines = raws := by
  induction h with
  | @ended s h =>
    have hs := s.lines_of_next
    rw [h] at hs
    exact ⟨hs.2, hs.1⟩
  | @line s rest raw raws h _ ih =>
    have hs := s.lines_of_next
    rw [h] at hs
    exact ⟨hs.2.symm.trans ih.1, by rw [hs.1, ih.2]⟩

theorem of_lines (hfails : s.fails = false) (h : s.lines = raws) : s.Yields raws := by
  induction raws generalizing s with
  | nil =>
    refine .ended ?_
    rw [next_of_lines_nil h, hfails]
    rfl
  | cons raw raws ih =>
    obtain ⟨rest, hnext, hlines, hrest⟩ := next_of_lines_cons h
    exact .line hnext (ih (hrest.trans hfails) hlines)

end Source.Yields

/-- bytes are read cut behind each newline -/
theorem yields_iff {bytes : List UInt8} {raws : List (List UInt8)} :
    Source.Yields ⟨bytes, false⟩ raws ↔ CutBehind newline bytes raws := by
  constructor
  · intro h
    exact h.lines_eq.2 ▸ cutBehind_rawLines bytes
  · intro h
    exact .of_lines rfl ((cutBehind_rawLines bytes).unique h)

/-! ## newlines -/

theorem newline_not_mem_decode {l : List UInt8} (h : newline ∉ l) : '\n' ∉ Utf8.decode l := by
  intro hmem
  have hin : String.utf8EncodeChar '\n' <:+: l := Utf8.infix_of_mem_decode (by decide) hmem
  exact h (hin.subset List.mem_cons_self)

theorem decode_append_newline (l rest : List UInt8) :
    Utf8.decode (l ++ newline :: rest) = Utf8.decode l ++ '\n' :: Utf8.decode rest :=
  Utf8.decode_append_cons_of_ascii (by decide) l rest

theorem decode_ne_nil {l : List UInt8} (h : l ≠ []) : Utf8.decode l ≠ [] := by
  cases l with
  | nil => exact absurd rfl h
  | cons b l =>
    obtain ⟨c, rest, -, hdecode⟩ := Utf8.exists_reads b l
    rw [hdecode]
    exact List.cons_ne_nil _ _

/-- the bytes of a text are cut where the text is -/
theorem cutBehind_decode {bytes : List UInt8} {raws : List (List UInt8)}
    (h : CutBehind newline bytes raws) :
    CutBehind '\n' (Utf8.decode bytes) (raws.map Utf8.decode) := by
  induction h with
  | nil => exact .nil
  | last hne h => exact .last (decode_ne_nil hne) (newline_not_mem_decode h)
  | @cons l rest raws h _ ih =>
    rw [decode_append_newline, List.map_cons, decode_append_newline]
    exact .cons (newline_not_mem_decode h) ih

/-! ## the lines of a stream -/

theorem forall₂_lossy_iff {raws : List (List UInt8)} {texts : List (List Char)} :
    List.Forall₂ Utf8.Lossy raws texts ↔ texts = raws.map Utf8.decode := by
  have hlossy : Utf8.Lossy = fun bytes cs => Utf8.decode bytes = cs := by
    funext bytes cs
    exact propext (Utf8.lossy_iff.trans eq_comm)
  rw [hlossy, ← List.forall₂_map_left_iff, List.forall₂_eq_eq_eq, eq_comm]

/-- **Decoding line by line is decoding the whole stream.** Reading bytes comes to an end, with
lines that are together all of the bytes. Decoded on their own they are the parts of the whole
stream decoded at once, cut behind each newline character; both have the same texts without CR and
LF at the end. A line that is replaced by another leaves the others as they are. -/
theorem decoded_line_by_line (bytes : List UInt8) :
    ∃ raws : List (List UInt8),
      (∀ raws', Source.Yields ⟨bytes, false⟩ raws' ↔ raws' = raws) ∧ raws.flatten = bytes ∧
      ∃ texts : List (List Char),
        (∀ texts', List.Forall₂ Utf8.Lossy raws texts' ↔ texts' = texts) ∧
        (∀ texts', (∃ cs, Utf8.Lossy bytes cs ∧ CutBehind '\n' cs texts') ↔ texts' = texts) ∧
        raws.map lineText = texts.map stripLineEnd ∧
        ∀ front raw back l, raws = front ++ raw :: back → newline ∉ l →
          Source.Yields ⟨front.flatten ++ (l ++ newline :: back.flatten), false⟩
            (front ++ (l ++ [newline]) :: back) := by
  have hcut := cutBehind_rawLines bytes
  refine ⟨rawLines bytes, fun raws => ⟨fun h => (yields_iff.mp h).unique hcut, ?_⟩,
    hcut.flatten, (rawLines bytes).map Utf8.decode, fun texts => forall₂_lossy_iff,
    fun texts => ⟨?_, ?_⟩, ?_, ?_⟩
  · rintro rfl
    exact yields_iff.mpr hcut
  · rintro ⟨cs, hlossy, htexts⟩
    obtain rfl := Utf8.lossy_iff.mp hlossy
    exact htexts.unique (cutBehind_decode hcut)
  · rintro rfl
    exact ⟨_, Utf8.lossy_iff.mpr rfl, cutBehind_decode hcut⟩
  · rw [List.map_map]
    rfl
  · intro front raw back l hraws hl
    exact yields_iff.mpr ((hraws ▸ hcut).replace hl)

end DecimalCalculator
