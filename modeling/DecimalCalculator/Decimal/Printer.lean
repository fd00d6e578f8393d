import DecimalCalculator.Decimal.Basic

/-!
# Decimals as text

* `plain`    every digit, with exactly `scale` places behind the point; a negative scale is
             written as zeros, so `⟨0, -2⟩` is `000`;
* `brief`    for the log: a zero is `0`, a small number has an exponent (`1.5E-7`), and so has a
             number with many zeros behind its digits (`2e+16`).
-/

namespace DecimalCalculator

namespace Decimal

def signText (d : Decimal) : List Char := if d.digits < 0 then ['-'] else []

/-- the digits of `d` without its sign and its scale -/
def magnitude (d : Decimal) : List Char := decimalDigits d.digits.natAbs

/-- `ds` with a point in front of its last `k` digits, and a digit at least in front of that -/
def withPoint (ds : List Char) (k : Nat) : List Char :=
  let padded := List.replicate (k + 1 - ds.length) '0' ++ ds
  padded.take (padded.length - k) ++ '.' :: padded.drop (padded.length - k)

/-- all digits of `d` without its sign -/
def plainMagnitude (d : Decimal) : List Char :=
  if d.scale ≤ 0 then d.magnitude ++ List.replicate (-d.scale).toNat '0'
  else withPoint d.magnitude d.scale.toNat

/-- every digit, and every place -/
def plain (d : Decimal) : String := String.ofList (d.signText ++ d.plainMagnitude)

theorem toList_plain (d : Decimal) : d.plain.toList = d.signText ++ d.plainMagnitude :=
  String.toList_ofList

/-! ## the brief form -/

/-- a number with more zeros than this between the point and its digits has an exponent -/
def leadingZeroLimit : Int := 5

/-- a number with more zeros than this behind its digits has an exponent -/
def trailingZeroLimit : Int := 15

/-- the first digit, the others behind a point, and the exponent, which is negative -/
def scientific (d : Decimal) : List Char :=
  let ds := d.magnitude
  let others := ds.tail
  ds.take 1 ++ (if others.isEmpty then [] else '.' :: others) ++
    ['E', '-'] ++ decimalDigits (d.scale + 1 - ds.length).toNat

/-- the brief form of a number other than zero, without its sign -/
def briefMagnitude (d : Decimal) : List Char :=
  if leadingZeroLimit < d.scale - d.magnitude.length then d.scientific
  else if trailingZeroLimit < -d.scale then
    d.magnitude ++ ['e', '+'] ++ decimalDigits (-d.scale).toNat
  else d.plainMagnitude

def brief (d : Decimal) : String :=
  if d.digits = 0 then "0" else String.ofList (d.signText ++ d.briefMagnitude)

end Decimal

end DecimalCalculator
