import Mathlib
import DecimalCalculator.Assignment
import DecimalCalculator.Proofs.Outcome
import DecimalCalculator.Proofs.Text.Blank
import DecimalCalculator.Proofs.Text.Cut

/-!
# What an assignment says

`Assigns value? line name v` says without an algorithm that `line` binds `name` to `v`: one `=`, a
word on its left, and on its right a literal of the number `v` or a name with the value `v`, each
with blanks around it or not. `assignmentOf_eq_ok_iff` shows that the parser of assignments agrees,
and by `LineKind.of_assigns` no other kind of line is taken for an assignment's.
-/

namespace DecimalCalculator

/-! ## words -/

/-- a word begins with a letter -/
theorem exists_cons_of_isIdentifier {w : List Char} (h : isIdentifier w = true) :
    ∃ c cs, w = c :: cs ∧ c.isAlpha = true := by
  cases w with
  | nil => cases h
  | cons c cs =>
    obtain ⟨-, hall⟩ := Bool.and_eq_true_iff.mp h
    exact ⟨c, cs, rfl, List.all_eq_true.mp hall c List.mem_cons_self⟩

theorem isDigit_of_isAlpha {c : Char} (h : c.isAlpha = true) : c.isDigit = false := by
  simp only [Char.isAlpha, Char.isUpper, Char.isLower, Bool.or_eq_true, decide_eq_true_eq,
    UInt32.le_iff_toNat_le, Bool.and_eq_true] at h
  simp only [Char.isDigit, Bool.and_eq_false_iff, decide_eq_false_iff_not,
    UInt32.le_iff_toNat_le]
  simp at h ⊢
  omega

/-- no word is a literal -/
theorem Decimal.ofLiteral?_of_isIdentifier {w : List Char} (h : isIdentifier w = true) :
    Decimal.ofLiteral? w = none := by
  obtain ⟨c, cs, rfl, hc⟩ := exists_cons_of_isIdentifier h
  have hdigit : c.isDigit = false := isDigit_of_isAlpha hc
  have hsign : ¬(c = '+' ∨ c = '-') := by
    rintro (rfl | rfl)
    · cases hc
    · cases hc
  have hpoint : c ≠ '.' := by
    rintro rfl
    cases hc
  have hunsigned : Decimal.isUnsigned (c :: cs) = false := by
    simp [Decimal.isUnsigned, Decimal.isDigits, Decimal.wholePart, hpoint, hdigit]
  rw [Decimal.ofLiteral?_cons hsign, trimStart_cons, isBlank_of_isAlpha hc]
  show (if Decimal.isUnsigned (c :: cs) then some _ else none) = none
  rw [hunsigned]
  rfl

/-! ## the two sides -/

theorem targetPart_append {l : List Char} (hl : '=' ∉ l) (r : List Char) :
    targetPart (l ++ '=' :: r) = l := takeWhile_ne_append hl r

theorem valuePart_append {l : List Char} (hl : '=' ∉ l) (r : List Char) :
    valuePart (l ++ '=' :: r) = r := congrArg List.tail (dropWhile_ne_append hl r)

theorem assignmentOf_append (b : Bindings) {l : List Char} (hl : '=' ∉ l) (r : List Char) :
    assignmentOf b (l ++ '=' :: r) =
      if '=' ∈ r then .error .invalidAssignment
      else if isIdentifier (trim l) then
        (assignedValue b (trim r)).map fun v => (String.ofList (trim l), v)
      else .error .invalidIdentifier := by
  unfold assignmentOf hasSingleEquals
  rw [targetPart_append hl, valuePart_append hl]
  by_cases hr : '=' ∈ r
  · simp [hr]
  · simp [hr]

theorem assignmentOf_of_not_mem (b : Bindings) {line : List Char} (h : '=' ∉ line) :
    assignmentOf b line = .error .invalidAssignment := by
  unfold assignmentOf hasSingleEquals
  simp [h]

/-! ## the relation -/

/-- the number that the right side of an assignment writes or names -/
inductive Denotes (value? : String → Option Decimal) : List Char → Decimal → Prop
  | literal {text : List Char} {v : Decimal} (h : Decimal.ofLiteral? text = some v) :
    Denotes value? text v
  | copy {text : List Char} {source : String} {v : Decimal} (hsource : text = source.toList)
    (hname : isIdentifier text = true) (hv : value? source = some v) : Denotes value? text v

/-- `line` binds `name` to `v` -/
inductive Assigns (value? : String → Option Decimal) : List Char → String → Decimal → Prop
  | intro {l r : List Char} {name : String} {v : Decimal} (hl : '=' ∉ l) (hr : '=' ∉ r)
    (htarget : trim l = name.toList) (hname : isIdentifier name.toList = true)
    (hv : Denotes value? (trim r) v) : Assigns value? (l ++ '=' :: r) name v

theorem Denotes.ne_nil {value? : String → Option Decimal} {text : List Char} {v : Decimal}
    (h : Denotes value? text v) : text ≠ [] := by
  rintro rfl
  cases h with
  | literal h => cases h
  | copy hsource hname hv => cases hname

theorem Denotes.unique {value? : String → Option Decimal} {text : List Char} {v w : Decimal}
    (h : Denotes value? text v) (h' : Denotes value? text w) : v = w := by
  cases h with
  | literal h =>
    cases h' with
    | literal h' => exact Option.some.inj (h.symm.trans h')
    | copy _ hname _ =>
      rw [Decimal.ofLiteral?_of_isIdentifier hname] at h
      cases h
  | copy hsource hname hv =>
    cases h' with
    | literal h' =>
      rw [Decimal.ofLiteral?_of_isIdentifier hname] at h'
      cases h'
    | copy hsource' _ hv' =>
      rw [String.toList_inj.mp (hsource.symm.trans hsource'), hv'] at hv
      exact (Option.some.inj hv).symm

theorem Assigns.unique {value? : String → Option Decimal} {line : List Char} {name name' : String}
    {v v' : Decimal} (h : Assigns value? line name v) (h' : Assigns value? line name' v') :
    name = name' ∧ v = v' := by
  cases h with
  | @intro l r name v hl _ htarget _ hv =>
    generalize hline : l ++ '=' :: r = line at h'
    cases h' with
    | @intro l' r' name' v' hl' _ htarget' _ hv' =>
      have hleft := targetPart_append hl r
      have hright := valuePart_append hl r
      rw [hline, targetPart_append hl'] at hleft
      rw [hline, valuePart_append hl'] at hright
      subst hleft hright
      exact ⟨String.toList_inj.mp (htarget.symm.trans htarget'), hv.unique hv'⟩

theorem assignedValue_eq_ok_iff {b : Bindings} {text : List Char} {v : Decimal} :
    assignedValue b text = .ok v ↔ Denotes b.get? text v := by
  constructor
  · intro h
    unfold assignedValue at h
    split at h
    · next w hw =>
      cases h
      exact .literal hw
    · split at h
      · next hid =>
        split at h
        · next w hw =>
          cases h
          exact .copy String.toList_ofList.symm hid hw
        · cases h
      · cases h
  · intro h
    unfold assignedValue
    cases h with
    | literal h => rw [h]
    | copy hsource hname hv =>
      rw [Decimal.ofLiteral?_of_isIdentifier hname, if_pos hname, hsource, String.ofList_toList, hv]

/-- the parser of assignments finds what the line says, and nothing else -/
theorem assignmentOf_eq_ok_iff {b : Bindings} {line : List Char} {name : String} {v : Decimal} :
    assignmentOf b line = .ok (name, v) ↔ Assigns b.get? line name v := by
  constructor
  · intro h
    have hmem : '=' ∈ line := by
      by_contra hn
      rw [assignmentOf_of_not_mem b hn] at h
      cases h
    obtain ⟨l, r, rfl, hl⟩ := List.eq_append_cons_of_mem hmem
    rw [assignmentOf_append b hl] at h
    split at h
    · cases h
    · next hr =>
      split at h
      · next hid =>
        obtain ⟨w, hv, hw⟩ := map_eq_ok_iff.mp h
        cases hw
        have hto : (String.ofList (trim l)).toList = trim l := String.toList_ofList
        have hname : isIdentifier (String.ofList (trim l)).toList = true := by
          rw [hto]
          exact hid
        exact .intro hl hr hto.symm hname (assignedValue_eq_ok_iff.mp hv)
      · cases h
  · intro h
    cases h with
    | intro hl hr htarget hname hv =>
      rw [assignmentOf_append b hl, if_neg hr, htarget, if_pos hname,
        assignedValue_eq_ok_iff.mpr hv, String.ofList_toList]
      rfl

/-! ## refusals -/

theorem assignedValue_eq_error {b : Bindings} {text : List Char} {e : Rejection}
    (h : assignedValue b text = .error e) :
    e = .invalidAssignment ∨ ∃ name, e = .unknownVariable name := by
  unfold assignedValue at h
  split at h
  · cases h
  · split at h
    · split at h
      · cases h
      · cases h
        exact Or.inr ⟨_, rfl⟩
    · cases h
      exact Or.inl rfl

/-- all that an assignment is refused for -/
theorem assignmentOf_eq_error {b : Bindings} {line : List Char} {e : Rejection}
    (h : assignmentOf b line = .error e) :
    e = .invalidIdentifier ∨ e = .invalidAssignment ∨ ∃ name, e = .unknownVariable name := by
  unfold assignmentOf at h
  split at h
  · dsimp only at h
    split at h
    · exact Or.inr (assignedValue_eq_error (map_eq_error_iff.mp h))
    · cases h
      exact Or.inl rfl
  · cases h
    exact Or.inr (Or.inl rfl)

/-! ## dispatch -/

theorem isBlank_equals : isBlank '=' = false := rfl

/-- blanks at the ends of a line do not change what it assigns -/
theorem assignmentOf_trim (b : Bindings) (line : List Char) :
    assignmentOf b (trim line) = assignmentOf b line := by
  by_cases hmem : '=' ∈ line
  · obtain ⟨l, r, rfl, hl⟩ := List.eq_append_cons_of_mem hmem
    have hl' : '=' ∉ trimStart l := fun h =>
      hl ((List.dropWhile_sublist isBlank).subset h)
    have hr : '=' ∈ trimEnd r ↔ '=' ∈ r := mem_trimEnd_iff isBlank_equals
    rw [trim_append_cons isBlank_equals, assignmentOf_append b hl', assignmentOf_append b hl,
      trim_trimStart, trim_trimEnd]
    simp only [hr]
  · have hmem' : '=' ∉ trim line := fun h => hmem (mem_of_mem_trim h)
    rw [assignmentOf_of_not_mem b hmem, assignmentOf_of_not_mem b hmem']

theorem Assigns.trim_ne_nil {value? : String → Option Decimal} {line : List Char} {name : String}
    {v : Decimal} (h : Assigns value? line name v) : trim line ≠ [] := by
  cases h with
  | intro hl hr htarget hname hv =>
    rw [trim_append_cons isBlank_equals]
    simp

/-- a line that assigns is taken for an assignment -/
theorem LineKind.of_assigns {value? : String → Option Decimal} {line : List Char} {name : String}
    {v : Decimal} (h : Assigns value? line name v) : LineKind.of (trim line) = .assignment := by
  cases h with
  | @intro l r name v hl hr htarget hname hv =>
    have hl' : '=' ∉ trimStart l := fun h =>
      hl ((List.dropWhile_sublist isBlank).subset h)
    obtain ⟨c, cs, hcs, hc⟩ := exists_cons_of_isIdentifier hname
    obtain ⟨t, ht⟩ : trim l <+: trimStart l := List.rdropWhile_prefix isBlank (trimStart l)
    have hline : trim (l ++ '=' :: r) = trimStart l ++ '=' :: trimEnd r :=
      trim_append_cons isBlank_equals l r
    have hhead : (trim (l ++ '=' :: r)).head? ≠ some '/' := by
      rw [hline, ← ht, htarget, hcs]
      intro hslash
      rw [show c = '/' from Option.some.inj hslash] at hc
      cases hc
    have hright : trimEnd r ≠ [] := by
      intro he
      have hr' := trim_trimEnd r
      rw [he] at hr'
      exact hv.ne_nil hr'.symm
    have hleft : (trim l).all isTargetChar = true := by
      rw [htarget, List.all_eq_true]
      intro a ha
      have hall := List.all_eq_true.mp (Bool.and_eq_true_iff.mp hname).2 a ha
      simp [isTargetChar, Char.isAlphanum, hall]
    have hassign : isAssignment (trim (l ++ '=' :: r)) = true := by
      unfold isAssignment
      rw [hline, targetPart_append hl', valuePart_append hl']
      have hleft' : (trimEnd (trimStart l)).all isTargetChar = true := hleft
      simp [hright, hleft']
    unfold LineKind.of
    rw [if_neg hhead, if_pos hassign]

end DecimalCalculator
