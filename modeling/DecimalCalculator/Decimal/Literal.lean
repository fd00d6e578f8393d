import DecimalCalculator.Decimal.Basic
import DecimalCalculator.Text.Blank

/-!
# Number literals

An unsigned number is one or more digits, and optionally a point with one or more digits behind
it. A literal is an unsigned number with at most one sign in front and blanks only in front of
its first digit. Reading keeps the scale as it is written, so `2.50` has two places; there is no
negative zero, so `-0` is `0`.
-/

namespace DecimalCalculator

namespace Decimal

/-! ## unsigned numbers -/

/-- one or more of the digits `0` to `9` -/
def isDigits (cs : List Char) : Bool := !cs.isEmpty && cs.all Char.isDigit

/-- what stands in front of the first point, and what stands behind it -/
def wholePart (cs : List Char) : List Char := cs.takeWhile (· != '.')
def fractionPart (cs : List Char) : List Char := (cs.dropWhile (· != '.')).tail

/-- digits, and optionally a point with digits behind it -/
def isUnsigned (cs : List Char) : Bool :=
  isDigits (wholePart cs) && (!cs.contains '.' || isDigits (fractionPart cs))

/-- all digits as one integer, with a place for each of those behind the point -/
def unsignedValue (cs : List Char) : Decimal :=
  ⟨Nat.ofDigitChars 10 (wholePart cs ++ fractionPart cs) 0, (fractionPart cs).length⟩

/-- the decimal that an unsigned number writes -/
def ofUnsigned? (cs : List Char) : Option Decimal :=
  if isUnsigned cs then some (unsignedValue cs) else none

theorem ofUnsigned?_isSome (cs : List Char) : (ofUnsigned? cs).isSome = isUnsigned cs := by
  unfold ofUnsigned?
  cases h : isUnsigned cs <;> rfl

/-! ## literals -/

/-- without the sign in front, if there is one -/
def dropSign : List Char → List Char
  | [] => []
  | c :: cs => if c = '+' ∨ c = '-' then cs else c :: cs

/-- an unsigned number, with at most one sign and then blanks in front -/
def isLiteral (cs : List Char) : Bool := isUnsigned (trimStart (dropSign cs))

/-- the decimal that a literal writes -/
def ofLiteral? (cs : List Char) : Option Decimal :=
  let magnitude := ofUnsigned? (trimStart (dropSign cs))
  if cs.head? = some '-' then magnitude.map neg else magnitude

theorem ofLiteral?_plus (cs : List Char) :
    ofLiteral? ('+' :: cs) = ofUnsigned? (trimStart cs) := rfl
theorem ofLiteral?_minus (cs : List Char) :
    ofLiteral? ('-' :: cs) = (ofUnsigned? (trimStart cs)).map neg := rfl

/-- without a sign, only blanks are skipped -/
theorem ofLiteral?_cons {c : Char} (h : ¬(c = '+' ∨ c = '-')) (cs : List Char) :
    ofLiteral? (c :: cs) = ofUnsigned? (trimStart (c :: cs)) := by
  have hminus : (c :: cs).head? ≠ some '-' := fun hc => h (.inr (Option.some.inj hc))
  have hdrop : dropSign (c :: cs) = c :: cs := if_neg h
  unfold ofLiteral?
  rw [if_neg hminus, hdrop]

theorem ofLiteral?_isSome (cs : List Char) : (ofLiteral? cs).isSome = isLiteral cs := by
  show (if cs.head? = some '-' then (ofUnsigned? (trimStart (dropSign cs))).map neg
    else ofUnsigned? (trimStart (dropSign cs))).isSome = _
  rw [isLiteral, ← ofUnsigned?_isSome]
  split
  · exact Option.isSome_map
  · rfl

theorem isLiteral_of_ofLiteral? {cs : List Char} {v : Decimal} (h : ofLiteral? cs = some v) :
    isLiteral cs = true := by
  rw [← ofLiteral?_isSome, h]
  rfl

end Decimal

end DecimalCalculator
