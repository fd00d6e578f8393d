import DecimalCalculator.Text.Utf8

/-!
# Reading lines

A source is the bytes that are still to be read, and whether reading fails where they end. A line
goes up to its newline byte, and the last one may be without; if reading fails there, what was
read of that line is lost. Each line is decoded on its own, without the CR and LF at its end.
-/

namespace DecimalCalculator

/-- what is still to be read -/
structure Source where
  bytes : List UInt8
  fails : Bool

/-- what reading a line gives -/
inductive Reading where
  | line (raw : List UInt8) (rest : Source)
  | ended
  | failed

def newline : UInt8 := 10

/-- the bytes up to the first newline, and the bytes from there on -/
def lineHead (bytes : List UInt8) : List UInt8 := bytes.takeWhile (· != newline)
def lineTail (bytes : List UInt8) : List UInt8 := bytes.dropWhile (· != newline)

theorem lineHead_append_lineTail (bytes : List UInt8) : lineHead bytes ++ lineTail bytes = bytes :=
  List.takeWhile_append_dropWhile

namespace Source

/-- the next line, with its newline byte -/
def next (s : Source) : Reading :=
  match lineTail s.bytes with
  | b :: rest => .line (lineHead s.bytes ++ [b]) ⟨rest, s.fails⟩
  | [] =>
    if s.fails then .failed
    else if s.bytes.isEmpty then .ended
    else .line s.bytes ⟨[], s.fails⟩

theorem append_of_next {s rest : Source} {raw : List UInt8} (h : s.next = .line raw rest) :
    raw ++ rest.bytes = s.bytes := by
  unfold next at h
  split at h
  · next b tail e =>
    cases h
    have hs := lineHead_append_lineTail s.bytes
    rw [e] at hs
    simpa using hs
  · split at h
    · cases h
    · split at h
      · cases h
      · cases h
        exact List.append_nil _

theorem ne_nil_of_next {s rest : Source} {raw : List UInt8} (h : s.next = .line raw rest) :
    raw ≠ [] := by
  unfold next at h
  split at h
  · cases h
    simp
  · split at h
    · cases h
    · split at h
      · cases h
      · next hn =>
        cases h
        simpa using hn

theorem length_of_next {s rest : Source} {raw : List UInt8} (h : s.next = .line raw rest) :
    rest.bytes.length < s.bytes.length := by
  rw [← append_of_next h, List.length_append]
  have := List.length_pos_iff.mpr (ne_nil_of_next h)
  omega

end Source

/-! ## the text of a line -/

def isLineEnd (c : Char) : Bool := c == '\n' || c == '\r'

/-- without the CR and LF at its end -/
def stripLineEnd (cs : List Char) : List Char := (cs.reverse.dropWhile isLineEnd).reverse

/-- all of the CR and LF at the end are taken away, and nothing else -/
theorem stripLineEnd_eq_iff {cs l : List Char} :
    stripLineEnd cs = l ↔ ∃ ends, cs = l ++ ends ∧ (∀ c ∈ ends, isLineEnd c = true) ∧
      ∀ c, l.getLast? = some c → isLineEnd c = false := by
  unfold stripLineEnd
  constructor
  · rintro rfl
    refine ⟨(cs.reverse.takeWhile isLineEnd).reverse, ?_, fun c hc => ?_, fun c hc => ?_⟩
    · rw [← List.reverse_append, List.takeWhile_append_dropWhile, List.reverse_reverse]
    · exact List.all_eq_true.mp List.all_takeWhile c (List.mem_reverse.mp hc)
    · have h := List.head?_dropWhile_not isLineEnd cs.reverse
      rw [← List.getLast?_reverse, hc] at h
      simpa using h
  · rintro ⟨ends, rfl, hends, hlast⟩
    have hstop : l.reverse.dropWhile isLineEnd = l.reverse := by
      cases hl : l.reverse with
      | nil => rfl
      | cons c r =>
        have hc : l.getLast? = some c := by rw [← List.head?_reverse, hl]; rfl
        rw [List.dropWhile_cons, hlast c hc]
        rfl
    rw [List.reverse_append, List.dropWhile_append_of_pos, hstop, List.reverse_reverse]
    exact fun c hc => hends c (List.mem_reverse.mp hc)

/-- a line as text -/
def lineText (raw : List UInt8) : List Char := stripLineEnd (Utf8.decode raw)

/-- what is read of a line is all that its bytes say in front of the CR and LF at its end -/
theorem decode_eq_lineText_append (raw : List UInt8) :
    ∃ ends, Utf8.decode raw = lineText raw ++ ends ∧ (∀ c ∈ ends, isLineEnd c = true) ∧
      ∀ c, (lineText raw).getLast? = some c → isLineEnd c = false :=
  stripLineEnd_eq_iff.mp rfl

end DecimalCalculator
