/-!
# Blanks

The characters with the Unicode property `White_Space`. They separate nothing inside an
expression and are cut off at both ends of a line.
-/

namespace DecimalCalculator

/-- the ranges of the property `White_Space`, by code point, both ends included -/
def blankRanges : List (Nat × Nat) :=
  [(0x0009, 0x000D), (0x0020, 0x0020), (0x0085, 0x0085), (0x00A0, 0x00A0), (0x1680, 0x1680),
    (0x2000, 0x200A), (0x2028, 0x2029), (0x202F, 0x202F), (0x205F, 0x205F), (0x3000, 0x3000)]

def isBlank (c : Char) : Bool := blankRanges.any fun (lo, hi) => lo ≤ c.toNat && c.toNat ≤ hi

/-! ## trimming -/

def trimStart (cs : List Char) : List Char := cs.dropWhile isBlank
def trimEnd (cs : List Char) : List Char := (cs.reverse.dropWhile isBlank).reverse

/-- without the blanks at both ends -/
def trim (cs : List Char) : List Char := trimEnd (trimStart cs)

theorem trimStart_nil : trimStart [] = [] := rfl
theorem trimStart_cons (c : Char) (cs : List Char) :
    trimStart (c :: cs) = if isBlank c then trimStart cs else c :: cs := by
  unfold trimStart
  rw [List.dropWhile_cons]

/-! ## blanks anywhere -/

/-- without any blank -/
def dropBlanks (cs : List Char) : List Char := cs.filter fun c => !isBlank c

theorem dropBlanks_nil : dropBlanks [] = [] := rfl
theorem dropBlanks_append (a b : List Char) : dropBlanks (a ++ b) = dropBlanks a ++ dropBlanks b :=
  List.filter_append ..

/-- blanks are removed -/
theorem dropBlanks_cons_of_isBlank {c : Char} (h : isBlank c = true) (cs : List Char) :
    dropBlanks (c :: cs) = dropBlanks cs :=
  List.filter_cons_of_neg (by rw [h]; exact Bool.false_ne_true)

/-- everything else is kept where it is -/
theorem dropBlanks_cons_of_not_isBlank {c : Char} (h : isBlank c = false) (cs : List Char) :
    dropBlanks (c :: cs) = c :: dropBlanks cs :=
  List.filter_cons_of_pos (by rw [h, Bool.not_false])

theorem mem_dropBlanks_iff {c : Char} {cs : List Char} :
    c ∈ dropBlanks cs ↔ c ∈ cs ∧ isBlank c = false := by
  unfold dropBlanks
  rw [List.mem_filter, Bool.not_eq_true']

theorem dropBlanks_eq_nil {cs : List Char} (h : ∀ c ∈ cs, isBlank c = true) :
    dropBlanks cs = [] := by
  induction cs with
  | nil => rfl
  | cons c cs ih =>
    obtain ⟨hc, hcs⟩ := List.forall_mem_cons.mp h
    rw [dropBlanks_cons_of_isBlank hc, ih hcs]

theorem dropBlanks_of_forall {cs : List Char} (h : ∀ c ∈ cs, isBlank c = false) :
    dropBlanks cs = cs := by
  induction cs with
  | nil => rfl
  | cons c cs ih =>
    obtain ⟨hc, hcs⟩ := List.forall_mem_cons.mp h
    rw [dropBlanks_cons_of_not_isBlank hc, ih hcs]

theorem dropBlanks_trimStart (cs : List Char) : dropBlanks (trimStart cs) = dropBlanks cs := by
  induction cs with
  | nil => rfl
  | cons c cs ih =>
    rw [trimStart_cons]
    split
    · next hc => rw [ih, dropBlanks_cons_of_isBlank hc]
    · rfl

end DecimalCalculator
