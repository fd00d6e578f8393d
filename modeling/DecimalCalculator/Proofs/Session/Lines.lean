import DecimalCalculator.Proofs.Text.Cut
import DecimalCalculator.Session.Source

/-!
# The lines of a source

Bytes are cut behind each newline byte (`rawLines`). A source that ends gives all of these lines,
and one that fails at its end gives those up to its last newline (`Source.lines`): each reading
takes the first of them (`Source.next_of_lines_cons`), and when none is left the source ends or
fails (`Source.next_of_lines_nil`).
-/

namespace DecimalCalculator

/-! ## bytes -/

/-- a byte in front of the first line -/
def ontoFirst (b : UInt8) : List (List UInt8) → List (List UInt8)
  | [] => [[b]]
  | l :: ls => (b :: l) :: ls

/-- the lines of bytes, each with its newline byte; the last one may be without -/
def rawLines : List UInt8 → List (List UInt8)
  | [] => []
  | b :: rest => if b = newline then [b] :: rawLines rest else ontoFirst b (rawLines rest)

/-- the bytes up to the last newline -/
def complete (bytes : List UInt8) : List UInt8 := bytes.rdropWhile (· != newline)

section
variable {l : List UInt8}

theorem rawLines_append (h : newline ∉ l) (rest : List UInt8) :
    rawLines (l ++ newline :: rest) = (l ++ [newline]) :: rawLines rest := by
  induction l with
  | nil => exact if_pos rfl
  | cons b l ih =>
    have hb : b ≠ newline := (List.ne_of_not_mem_cons h).symm
    rw [List.cons_append, rawLines, if_neg hb, ih (List.not_mem_of_not_mem_cons h)]
    rfl

theorem rawLines_of_not_mem (h : newline ∉ l) (hl : l ≠ []) : rawLines l = [l] := by
  induction l with
  | nil => exact absurd rfl hl
  | cons b l ih =>
    have hb : b ≠ newline := (List.ne_of_not_mem_cons h).symm
    rw [rawLines, if_neg hb]
    cases l with
    | nil => rfl
    | cons d l =>
      rw [ih (List.not_mem_of_not_mem_cons h) (List.cons_ne_nil _ _)]
      rfl

theorem complete_append (l rest : List UInt8) :
    complete (l ++ newline :: rest) = l ++ newline :: complete rest := rdropWhile_ne_append l rest

theorem complete_of_not_mem (h : newline ∉ l) : complete l = [] := rdropWhile_ne_of_not_mem h

end

/-! ## sources -/

namespace Source

/-- the lines that can be read -/
def lines (s : Source) : List (List UInt8) :=
  rawLines (if s.fails then complete s.bytes else s.bytes)

section
variable {l : List UInt8}

theorem next_of_newline (h : newline ∉ l) (rest : List UInt8) (fails : Bool) :
    next ⟨l ++ newline :: rest, fails⟩ = .line (l ++ [newline]) ⟨rest, fails⟩ := by
  have hhead : lineHead (l ++ newline :: rest) = l := takeWhile_ne_append h rest
  have htail : lineTail (l ++ newline :: rest) = newline :: rest := dropWhile_ne_append h rest
  simp only [next, hhead, htail]

theorem next_of_not_mem (h : newline ∉ l) (fails : Bool) :
    next ⟨l, fails⟩ =
      if fails then .failed else if l.isEmpty then .ended else .line l ⟨[], fails⟩ := by
  have htail : lineTail l = [] := dropWhile_ne_of_not_mem h
  simp only [next, htail]

theorem lines_of_newline (h : newline ∉ l) (rest : List UInt8) (fails : Bool) :
    lines ⟨l ++ newline :: rest, fails⟩ = (l ++ [newline]) :: lines ⟨rest, fails⟩ := by
  unfold lines
  cases fails with
  | false => exact rawLines_append h rest
  | true =>
    show rawLines (complete (l ++ newline :: rest)) = _
    rw [complete_append, rawLines_append h]
    rfl

end

/-- what a reading tells about the lines that are left -/
theorem lines_of_next (s : Source) :
    match s.next with
    | .line raw rest => s.lines = raw :: rest.lines ∧ rest.fails = s.fails
    | .ended => s.lines = [] ∧ s.fails = false
    | .failed => s.lines = [] ∧ s.fails = true := by
  obtain ⟨bytes, fails⟩ := s
  by_cases h : newline ∈ bytes
  · obtain ⟨l, rest, rfl, hl⟩ := List.eq_append_cons_of_mem h
    rw [next_of_newline hl]
    exact ⟨lines_of_newline hl rest fails, rfl⟩
  · rw [next_of_not_mem h]
    cases fails with
    | true =>
      refine ⟨?_, rfl⟩
      show rawLines (complete bytes) = []
      rw [complete_of_not_mem h]
      rfl
    | false =>
      cases bytes with
      | nil => exact ⟨rfl, rfl⟩
      | cons b rest => exact ⟨rawLines_of_not_mem h (List.cons_ne_nil _ _), rfl⟩

section
variable {s : Source}

theorem next_of_lines_nil (h : s.lines = []) : s.next = if s.fails then .failed else .ended := by
  have hs := s.lines_of_next
  cases hn : s.next with
  | line raw rest =>
    simp only [hn, h] at hs
    cases hs.1
  | ended =>
    simp only [hn] at hs
    rw [hs.2]
    rfl
  | failed =>
    simp only [hn] at hs
    rw [hs.2]
    rfl

theorem next_of_lines_cons {raw : List UInt8} {ls : List (List UInt8)} (h : s.lines = raw :: ls) :
    ∃ rest, s.next = .line raw rest ∧ rest.lines = ls ∧ rest.fails = s.fails := by
  have hs := s.lines_of_next
  cases hn : s.next with
  | line raw' rest =>
    simp only [hn, h, List.cons.injEq] at hs
    obtain ⟨⟨rfl, rfl⟩, hf⟩ := hs
    exact ⟨rest, rfl, rfl, hf⟩
  | ended =>
    simp only [hn, h] at hs
    cases hs.1
  | failed =>
    simp only [hn, h] at hs
    cases hs.1

end

end Source

end DecimalCalculator
