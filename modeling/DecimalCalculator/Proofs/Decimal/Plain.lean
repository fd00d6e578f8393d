import Mathlib
import DecimalCalculator.Decimal.Literal
import DecimalCalculator.Decimal.Printer
import DecimalCalculator.Proofs.Decimal.Rational
import DecimalCalculator.Proofs.Text.Blank
import DecimalCalculator.Proofs.Text.Cut

/-!
# Reading what was printed

The plain text of a decimal is a literal of the same number. The zeros that stand for a negative
scale are read as digits, so what is read is the decimal with these zeros spelled out:

* `spelledOut`                the same number without a negative scale;
* `ofLiteral?_plain`          the plain text of `d` is read as `d.spelledOut`;
* `plain_spelledOut_iff`      printing that gives the text again, except for a zero of negative scale;
* `noLeadingZero_plain_iff`   and only such a zero is printed with zeros to spare (`000`).
-/

namespace DecimalCalculator

namespace Decimal

/-! ## unsigned numbers -/

theorem isDigits_iff {cs : List Char} :
    isDigits cs = true ↔ cs ≠ [] ∧ ∀ c ∈ cs, c.isDigit = true := by
  unfold isDigits
  rw [Bool.and_eq_true, List.all_eq_true, Bool.not_eq_true', List.isEmpty_eq_false_iff]

theorem point_not_mem_of_isDigits {cs : List Char} (h : isDigits cs = true) : '.' ∉ cs := by
  intro hm
  have hdigit := (isDigits_iff.mp h).2 '.' hm
  cases hdigit

theorem isUnsigned_of_isDigits {cs : List Char} (h : isDigits cs = true) :
    isUnsigned cs = true := by
  have hp := point_not_mem_of_isDigits h
  unfold isUnsigned wholePart
  rw [takeWhile_ne_of_not_mem hp, h]
  simp [hp]

theorem isUnsigned_point {a b : List Char} (ha : isDigits a = true) (hb : isDigits b = true) :
    isUnsigned (a ++ '.' :: b) = true := by
  have hp := point_not_mem_of_isDigits ha
  unfold isUnsigned wholePart fractionPart
  rw [takeWhile_ne_append hp, dropWhile_ne_append hp, List.tail_cons, ha, hb]
  simp

theorem ofUnsigned?_of_isDigits {cs : List Char} (h : isDigits cs = true) :
    ofUnsigned? cs = some ⟨Nat.ofDigitChars 10 cs 0, 0⟩ := by
  have hp := point_not_mem_of_isDigits h
  unfold ofUnsigned? unsignedValue wholePart fractionPart
  rw [if_pos (isUnsigned_of_isDigits h), takeWhile_ne_of_not_mem hp, dropWhile_ne_of_not_mem hp,
    List.tail_nil, List.append_nil]
  rfl

theorem ofUnsigned?_point {a b : List Char} (ha : isDigits a = true) (hb : isDigits b = true) :
    ofUnsigned? (a ++ '.' :: b) = some ⟨Nat.ofDigitChars 10 (a ++ b) 0, b.length⟩ := by
  have hp := point_not_mem_of_isDigits ha
  unfold ofUnsigned? unsignedValue wholePart fractionPart
  rw [if_pos (isUnsigned_point ha hb), takeWhile_ne_append hp, dropWhile_ne_append hp,
    List.tail_cons]

theorem isUnsigned_of_ofUnsigned? {cs : List Char} {v : Decimal} (h : ofUnsigned? cs = some v) :
    isUnsigned cs = true := by
  rw [← ofUnsigned?_isSome, h]
  rfl

theorem scale_nonneg_of_ofUnsigned? {cs : List Char} {v : Decimal}
    (h : ofUnsigned? cs = some v) : 0 ≤ v.scale := by
  unfold ofUnsigned? at h
  split at h
  · cases h
    exact Int.natCast_nonneg _
  · cases h

/-- what is written has no negative scale -/
theorem scale_nonneg_of_ofLiteral? {cs : List Char} {v : Decimal}
    (h : ofLiteral? cs = some v) : 0 ≤ v.scale := by
  unfold ofLiteral? at h
  split at h
  · obtain ⟨u, hu, rfl⟩ := Option.map_eq_some_iff.mp h
    have hscale : 0 ≤ u.scale := scale_nonneg_of_ofUnsigned? hu
    exact hscale
  · exact scale_nonneg_of_ofUnsigned? h

/-- digits, or digits around a point -/
theorem isUnsigned_iff {u : List Char} :
    isUnsigned u = true ↔ isDigits u = true ∨
      ∃ a b, u = a ++ '.' :: b ∧ isDigits a = true ∧ isDigits b = true := by
  constructor
  · intro h
    by_cases hp : '.' ∈ u
    · obtain ⟨a, b, rfl, ha⟩ := List.eq_append_cons_of_mem hp
      unfold isUnsigned wholePart fractionPart at h
      rw [takeWhile_ne_append ha, dropWhile_ne_append ha, List.tail_cons] at h
      exact Or.inr ⟨a, b, rfl, by simpa using h⟩
    · unfold isUnsigned wholePart at h
      rw [takeWhile_ne_of_not_mem hp] at h
      exact Or.inl (Bool.and_eq_true_iff.mp h).1
  · rintro (h | ⟨a, b, rfl, ha, hb⟩)
    · exact isUnsigned_of_isDigits h
    · exact isUnsigned_point ha hb

/-- an unsigned number is digits and a point, and begins with a digit -/
theorem exists_cons_of_isUnsigned {u : List Char} (h : isUnsigned u = true) :
    ∃ c cs, u = c :: cs ∧ c.isDigit = true ∧ ∀ a ∈ u, a.isDigit = true ∨ a = '.' := by
  rcases isUnsigned_iff.mp h with hu | ⟨a, b, rfl, ha, hb⟩
  · obtain ⟨hne, hall⟩ := isDigits_iff.mp hu
    obtain ⟨c, cs, rfl⟩ := List.exists_cons_of_ne_nil hne
    exact ⟨c, cs, rfl, hall c List.mem_cons_self, fun a ha => Or.inl (hall a ha)⟩
  · obtain ⟨hne, halla⟩ := isDigits_iff.mp ha
    obtain ⟨-, hallb⟩ := isDigits_iff.mp hb
    obtain ⟨c, cs, rfl⟩ := List.exists_cons_of_ne_nil hne
    refine ⟨c, cs ++ '.' :: b, rfl, halla c List.mem_cons_self, fun x hx => ?_⟩
    rcases List.mem_append.mp hx with hx | hx
    · exact Or.inl (halla x hx)
    · rcases List.mem_cons.mp hx with rfl | hx
      · exact Or.inr rfl
      · exact Or.inl (hallb x hx)

/-- an unsigned number is the literal of its own value -/
theorem ofLiteral?_of_unsigned {u : List Char} {v : Decimal} (h : ofUnsigned? u = some v) :
    ofLiteral? u = some v := by
  obtain ⟨c, cs, rfl, hc, -⟩ := exists_cons_of_isUnsigned (isUnsigned_of_ofUnsigned? h)
  have hsign : ¬(c = '+' ∨ c = '-') := by
    rintro (rfl | rfl)
    · cases hc
    · cases hc
  rw [ofLiteral?_cons hsign, trimStart_cons, isBlank_of_isDigit hc]
  exact h

/-- with a minus in front it is the literal of the opposite value -/
theorem ofLiteral?_minus_unsigned {u : List Char} {v : Decimal} (h : ofUnsigned? u = some v) :
    ofLiteral? ('-' :: u) = some (-v) := by
  obtain ⟨c, cs, rfl, hc, -⟩ := exists_cons_of_isUnsigned (isUnsigned_of_ofUnsigned? h)
  rw [ofLiteral?_minus, trimStart_cons, isBlank_of_isDigit hc]
  show Option.map neg (ofUnsigned? (c :: cs)) = _
  rw [h]
  rfl

/-! ## the digits of a text -/

theorem isDigits_magnitude (d : Decimal) : isDigits d.magnitude = true := by
  unfold magnitude
  rw [decimalDigits_eq]
  refine isDigits_iff.mpr ⟨Nat.toDigits_ne_nil, fun c hc => ?_⟩
  exact Nat.isDigit_of_mem_toDigits (by decide) (by decide) hc

theorem ofDigitChars_magnitude (d : Decimal) :
    Nat.ofDigitChars 10 d.magnitude 0 = d.digits.natAbs := by
  unfold magnitude
  rw [decimalDigits_eq, Nat.ofDigitChars_ten_toDigits]

theorem forall_isDigit_zeros (k : ℕ) : ∀ c ∈ List.replicate k '0', c.isDigit = true := by
  intro c hc
  rw [List.eq_of_mem_replicate hc]
  rfl

/-- zeros behind the digits are powers of ten -/
theorem ofUnsigned?_zeros {ds : List Char} (h : isDigits ds = true) (k : ℕ) :
    ofUnsigned? (ds ++ List.replicate k '0') = some ⟨(Nat.ofDigitChars 10 ds 0 * tenPow k : ℕ), 0⟩ := by
  obtain ⟨hne, hall⟩ := isDigits_iff.mp h
  have hdigits : isDigits (ds ++ List.replicate k '0') = true := by
    refine isDigits_iff.mpr ⟨List.append_ne_nil_of_left_ne_nil hne _, fun c hc => ?_⟩
    exact (List.mem_append.mp hc).elim (hall c) (forall_isDigit_zeros k c)
  rw [ofUnsigned?_of_isDigits hdigits, Nat.ofDigitChars_append, Nat.ofDigitChars_replicate_zero,
    Nat.mul_comm]
  rfl

/-! ## a point among digits -/

/-- `ds` with zeros in front, so that there are more than `k` digits -/
def padded (ds : List Char) (k : ℕ) : List Char := List.replicate (k + 1 - ds.length) '0' ++ ds

theorem withPoint_eq (ds : List Char) (k : ℕ) :
    withPoint ds k = (padded ds k).take ((padded ds k).length - k) ++
      '.' :: (padded ds k).drop ((padded ds k).length - k) := rfl

theorem lt_length_padded (ds : List Char) (k : ℕ) : k < (padded ds k).length := by
  unfold padded
  rw [List.length_append, List.length_replicate]
  omega

theorem ofDigitChars_padded (ds : List Char) (k : ℕ) :
    Nat.ofDigitChars 10 (padded ds k) 0 = Nat.ofDigitChars 10 ds 0 := by
  unfold padded
  rw [Nat.ofDigitChars_append, Nat.ofDigitChars_replicate_zero, Nat.mul_zero]

/-- the point leaves `k` digits behind it -/
theorem ofUnsigned?_withPoint {ds : List Char} (h : isDigits ds = true) {k : ℕ} (hk : 0 < k) :
    ofUnsigned? (withPoint ds k) = some ⟨Nat.ofDigitChars 10 ds 0, k⟩ := by
  have hlen := lt_length_padded ds k
  have hall : ∀ c ∈ padded ds k, c.isDigit = true := fun c hc =>
    (List.mem_append.mp hc).elim (forall_isDigit_zeros _ c) ((isDigits_iff.mp h).2 c)
  have hwhole : isDigits ((padded ds k).take ((padded ds k).length - k)) = true := by
    refine isDigits_iff.mpr ⟨List.ne_nil_of_length_pos ?_, fun c hc => ?_⟩
    · rw [List.length_take]
      omega
    · exact hall c (List.mem_of_mem_take hc)
  have hfraction : isDigits ((padded ds k).drop ((padded ds k).length - k)) = true := by
    refine isDigits_iff.mpr ⟨List.ne_nil_of_length_pos ?_, fun c hc => ?_⟩
    · rw [List.length_drop]
      omega
    · exact hall c (List.mem_of_mem_drop hc)
  rw [withPoint_eq, ofUnsigned?_point hwhole hfraction, List.take_append_drop,
    ofDigitChars_padded, List.length_drop]
  congr 2
  omega

/-! ## what the plain text says -/

/-- the same number with the zeros of a negative scale among its digits -/
def spelledOut (d : Decimal) : Decimal := if d.scale < 0 then ⟨d.digitsAt 0, 0⟩ else d

theorem spelledOut_of_nonneg {d : Decimal} (h : 0 ≤ d.scale) : d.spelledOut = d :=
  if_neg (not_lt.mpr h)

theorem spelledOut_of_neg {d : Decimal} (h : d.scale < 0) :
    d.spelledOut = ⟨d.digits * tenPow (-d.scale).toNat, 0⟩ := by
  unfold spelledOut
  rw [if_pos h, digitsAt_eq, zero_sub]

theorem spelledOut_scale (d : Decimal) : d.spelledOut.scale = max d.scale 0 := by
  unfold spelledOut
  split
  · next h => exact (max_eq_right h.le).symm
  · next h => exact (max_eq_left (not_lt.mp h)).symm

theorem toRat_spelledOut (d : Decimal) : d.spelledOut.toRat = d.toRat := by
  unfold spelledOut
  split
  · next h => exact toRat_digitsAt h.le
  · rfl

theorem spelledOut_digits_neg_iff (d : Decimal) : d.spelledOut.digits < 0 ↔ d.digits < 0 := by
  by_cases h : d.scale < 0
  · rw [spelledOut_of_neg h]
    have hpos : (0 : ℤ) < (tenPow (-d.scale).toNat : ℕ) := by exact_mod_cast tenPow_pos _
    rw [← not_le, ← not_le, mul_nonneg_iff_of_pos_right hpos]
  · rw [spelledOut_of_nonneg (not_lt.mp h)]

/-- all digits without the sign -/
theorem ofUnsigned?_plainMagnitude (d : Decimal) :
    ofUnsigned? d.plainMagnitude = some ⟨d.spelledOut.digits.natAbs, d.spelledOut.scale⟩ := by
  unfold plainMagnitude
  split
  · next h =>
    rw [ofUnsigned?_zeros d.isDigits_magnitude, ofDigitChars_magnitude]
    rcases h.lt_or_eq with hneg | hzero
    · rw [spelledOut_of_neg hneg, Int.natAbs_mul, Int.natAbs_natCast]
    · rw [spelledOut_of_nonneg hzero.ge, hzero]
      simp [tenPow_zero]
  · next h =>
    have hpos : 0 < d.scale := not_le.mp h
    rw [ofUnsigned?_withPoint d.isDigits_magnitude (by omega), ofDigitChars_magnitude,
      spelledOut_of_nonneg hpos.le, Int.toNat_of_nonneg hpos.le]

/-- **The plain text of a decimal is a literal of the same number.** -/
theorem ofLiteral?_plain (d : Decimal) : ofLiteral? d.plain.toList = some d.spelledOut := by
  rw [toList_plain]
  unfold signText
  have hu := ofUnsigned?_plainMagnitude d
  split
  · next h =>
    have hneg : d.spelledOut.digits < 0 := (spelledOut_digits_neg_iff d).mpr h
    rw [List.singleton_append, ofLiteral?_minus_unsigned hu]
    congr 1
    show (⟨-(d.spelledOut.digits.natAbs : ℤ), d.spelledOut.scale⟩ : Decimal) = d.spelledOut
    rw [Int.ofNat_natAbs_of_nonpos hneg.le, neg_neg]
  · next h =>
    have hnonneg : 0 ≤ d.spelledOut.digits :=
      not_lt.mp fun hn => h ((spelledOut_digits_neg_iff d).mp hn)
    rw [List.nil_append, ofLiteral?_of_unsigned hu, Int.natAbs_of_nonneg hnonneg]

/-- the characters of a plain text -/
theorem mem_plain {d : Decimal} {c : Char} (h : c ∈ d.plain.toList) :
    c.isDigit = true ∨ c = '.' ∨ c = '-' := by
  obtain ⟨-, -, -, -, hall⟩ :=
    exists_cons_of_isUnsigned (isUnsigned_of_ofUnsigned? (ofUnsigned?_plainMagnitude d))
  rw [toList_plain] at h
  rcases List.mem_append.mp h with h | h
  · unfold signText at h
    split at h
    · exact Or.inr (Or.inr (List.mem_singleton.mp h))
    · cases h
  · exact (hall c h).imp_right Or.inl

/-! ## printing what was read -/

theorem toDigits_mul_tenPow {n : ℕ} (hn : 0 < n) (k : ℕ) :
    Nat.toDigits 10 (n * tenPow k) = Nat.toDigits 10 n ++ List.replicate k '0' := by
  induction k with
  | zero => rw [tenPow_zero, Nat.mul_one, List.replicate_zero, List.append_nil]
  | succ k ih =>
    have hpos : 0 < n * tenPow k := Nat.mul_pos hn (tenPow_pos k)
    have hlast := Nat.toDigits_append_toDigits (by decide : 1 < 10) hpos (by decide : 0 < 10)
    rw [Nat.toDigits_zero, ih, Nat.add_zero] at hlast
    rw [tenPow_succ, ← Nat.mul_assoc, Nat.mul_comm, ← hlast, List.append_assoc,
      List.replicate_succ']

theorem magnitude_of_zero {d : Decimal} (h : d.digits = 0) : d.magnitude = ['0'] := by
  unfold magnitude
  rw [decimalDigits_eq, h]
  rfl

theorem plainMagnitude_of_nonpos {d : Decimal} (h : d.scale ≤ 0) :
    d.plainMagnitude = d.magnitude ++ List.replicate (-d.scale).toNat '0' := if_pos h

theorem toList_plain_of_zero {s : ℤ} (h : s ≤ 0) :
    (⟨0, s⟩ : Decimal).plain.toList = '0' :: List.replicate (-s).toNat '0' := by
  rw [toList_plain, plainMagnitude_of_nonpos h, magnitude_of_zero rfl]
  rfl

/-- zeros are printed with all of their places -/
theorem plain_zero_inj {s t : ℤ} (h : (⟨0, s⟩ : Decimal).plain = (⟨0, t⟩ : Decimal).plain) :
    s = t := by
  -- reading the text back tells positive scales apart, its length the others
  have hread := ofLiteral?_plain ⟨0, s⟩
  rw [h, ofLiteral?_plain] at hread
  have hmax : max t 0 = max s 0 := by
    rw [← spelledOut_scale ⟨0, t⟩, ← spelledOut_scale ⟨0, s⟩, Option.some.inj hread]
  by_cases hs : 0 < s
  · omega
  · have hlen := congrArg (·.toList.length) h
    simp only [toList_plain_of_zero (not_lt.mp hs), toList_plain_of_zero (by omega : t ≤ 0),
      List.length_cons, List.length_replicate] at hlen
    omega

theorem plain_spelledOut_of_ne_zero {d : Decimal} (h0 : d.digits ≠ 0) (h : d.scale < 0) :
    d.spelledOut.plain = d.plain := by
  have hsign : d.spelledOut.signText = d.signText := by
    unfold signText
    rw [if_congr (spelledOut_digits_neg_iff d) rfl rfl]
  have hmagnitude : d.spelledOut.plainMagnitude = d.plainMagnitude := by
    rw [plainMagnitude_of_nonpos h.le, spelledOut_of_neg h, plainMagnitude_of_nonpos le_rfl]
    unfold magnitude
    rw [decimalDigits_eq, decimalDigits_eq, Int.natAbs_mul, Int.natAbs_natCast,
      toDigits_mul_tenPow (Int.natAbs_pos.mpr h0)]
    exact List.append_nil _
  unfold plain
  rw [hsign, hmagnitude]

/-- What was read from a text is printed as that text again, except for a zero of negative
scale. -/
theorem plain_spelledOut_iff (d : Decimal) :
    d.spelledOut.plain = d.plain ↔ ¬(d.digits = 0 ∧ d.scale < 0) := by
  by_cases h : d.scale < 0
  · by_cases h0 : d.digits = 0
    · refine iff_of_false (fun he => ?_) (not_not.mpr ⟨h0, h⟩)
      obtain ⟨n, s⟩ := d
      obtain rfl : n = 0 := h0
      rw [spelledOut_of_neg h, zero_mul] at he
      exact absurd (plain_zero_inj he) h.ne'
    · exact iff_of_true (plain_spelledOut_of_ne_zero h0 h) fun hn => h0 hn.1
  · rw [spelledOut_of_nonneg (not_lt.mp h)]
    exact iff_of_true rfl fun hn => h hn.2

/-! ## zeros in front -/

/-- no zero in front of the whole part, unless that is `0` alone -/
def NoLeadingZero (cs : List Char) : Prop :=
  wholePart (dropSign cs) = ['0'] ∨ (wholePart (dropSign cs)).head? ≠ some '0'

theorem head?_magnitude {d : Decimal} (h : d.digits ≠ 0) : d.magnitude.head? ≠ some '0' := by
  have hn : d.digits.natAbs ≠ 0 := Int.natAbs_ne_zero.mpr h
  unfold magnitude
  rw [decimalDigits_eq, ← dropWhile_lastDigits hn (lt_tenPow_blockSize _)]
  intro hz
  have hhead := List.head?_dropWhile_not (· == '0')
    (lastDigits (blockSize (blockLevel d.digits.natAbs)) d.digits.natAbs)
  rw [hz] at hhead
  cases hhead

theorem dropSign_plain (d : Decimal) : dropSign d.plain.toList = d.plainMagnitude := by
  obtain ⟨c, cs, hcs, hc, -⟩ :=
    exists_cons_of_isUnsigned (isUnsigned_of_ofUnsigned? (ofUnsigned?_plainMagnitude d))
  rw [toList_plain]
  unfold signText
  split
  · rfl
  · rw [List.nil_append, hcs]
    refine if_neg ?_
    rintro (rfl | rfl)
    · cases hc
    · cases hc

theorem wholePart_plainMagnitude_of_nonpos {d : Decimal} (h : d.scale ≤ 0) :
    wholePart d.plainMagnitude = d.magnitude ++ List.replicate (-d.scale).toNat '0' := by
  rw [plainMagnitude_of_nonpos h]
  refine takeWhile_ne_of_not_mem fun hp => ?_
  rcases List.mem_append.mp hp with hp | hp
  · exact point_not_mem_of_isDigits d.isDigits_magnitude hp
  · cases List.eq_of_mem_replicate hp

/-- in front of a point stand the digits that are left, or `0` -/
theorem wholePart_plainMagnitude_of_pos {d : Decimal} (h : 0 < d.scale) :
    wholePart d.plainMagnitude = ['0'] ∨
      (wholePart d.plainMagnitude).head? = d.magnitude.head? ∧ d.digits ≠ 0 := by
  have hp : '.' ∉ padded d.magnitude d.scale.toNat := fun hm =>
    (List.mem_append.mp hm).elim (fun hz => by cases List.eq_of_mem_replicate hz)
      (point_not_mem_of_isDigits d.isDigits_magnitude)
  have hwhole : wholePart d.plainMagnitude = (padded d.magnitude d.scale.toNat).take
      ((padded d.magnitude d.scale.toNat).length - d.scale.toNat) := by
    unfold plainMagnitude
    rw [if_neg (not_le.mpr h), withPoint_eq]
    exact takeWhile_ne_append (fun hm => hp (List.mem_of_mem_take hm)) _
  rw [hwhole]
  rcases Nat.lt_or_ge d.scale.toNat d.magnitude.length with hlt | hge
  · have hpadded : padded d.magnitude d.scale.toNat = d.magnitude := by
      unfold padded
      rw [Nat.sub_eq_zero_of_le hlt, List.replicate_zero, List.nil_append]
    refine Or.inr ⟨?_, fun h0 => ?_⟩
    · rw [hpadded, List.head?_take, if_neg (by omega)]
    · rw [magnitude_of_zero h0, List.length_singleton] at hlt
      omega
  · have hzeros : d.scale.toNat + 1 - d.magnitude.length =
        d.scale.toNat - d.magnitude.length + 1 := by omega
    have hlen : (padded d.magnitude d.scale.toNat).length - d.scale.toNat = 1 := by
      unfold padded
      rw [List.length_append, List.length_replicate]
      omega
    left
    rw [hlen]
    unfold padded
    rw [hzeros, List.replicate_succ]
    rfl

/-- Only a zero of negative scale is printed with zeros to spare. -/
theorem noLeadingZero_plain_iff (d : Decimal) :
    NoLeadingZero d.plain.toList ↔ ¬(d.digits = 0 ∧ d.scale < 0) := by
  unfold NoLeadingZero
  rw [dropSign_plain]
  rcases lt_or_ge 0 d.scale with hpos | hnonpos
  · refine iff_of_true ?_ fun hn => absurd hn.2 (not_lt.mpr hpos.le)
    rcases wholePart_plainMagnitude_of_pos hpos with hz | ⟨hhead, h0⟩
    · exact Or.inl hz
    · rw [hhead]
      exact Or.inr (head?_magnitude h0)
  · rw [wholePart_plainMagnitude_of_nonpos hnonpos]
    by_cases h0 : d.digits = 0
    · rw [magnitude_of_zero h0]
      simp [h0]
    · refine iff_of_true (Or.inr ?_) fun hn => h0 hn.1
      obtain ⟨c, cs, hcs⟩ := List.exists_cons_of_ne_nil (isDigits_iff.mp d.isDigits_magnitude).1
      have hhead := head?_magnitude h0
      rw [hcs] at hhead ⊢
      exact hhead

end Decimal

end DecimalCalculator
