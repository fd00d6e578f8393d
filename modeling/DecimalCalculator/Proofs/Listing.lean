import Mathlib
import DecimalCalculator.Proofs.History
import DecimalCalculator.Proofs.Infix
import DecimalCalculator.Proofs.Token.Single

/-!
# The listing of variables as a record of the store

Whatever lines a calculator has answered, its names are words and its values have no negative scale
(`Bindings.Listable`), for a value comes from a literal or from another variable. So each line of
`/variables` is an assignment of the value that it shows, and the listing restores the store in a
new calculator (`Calculator.listing_restores`).
-/

namespace DecimalCalculator

/-! ## the value of a name -/

namespace Calculator

/-- a bare name has the value that it is bound to -/
theorem calculate_of_isIdentifier {c : Calculator} {w : List Char} {v : Decimal}
    (hw : isIdentifier w = true) (hv : c.bindings.get? (String.ofList w) = some v) :
    (c.calculate w).outcome = .ok v :=
  calculate_of_operand (a := .identifier (String.ofList w)) (Token.ofText_of_isIdentifier hw) hv

end Calculator

theorem LineKind.of_isIdentifier {w : List Char} (hw : isIdentifier w = true) :
    LineKind.of w = .expression := by
  obtain ⟨c, cs, rfl, hc⟩ := exists_cons_of_isIdentifier hw
  have hslash : (c :: cs).head? ≠ some '/' := by
    intro h
    rw [Option.some.inj h] at hc
    cases hc
  have hequals : '=' ∉ c :: cs := by
    intro h
    have hall := List.all_eq_true.mp (Bool.and_eq_true_iff.mp hw).2 '=' h
    cases hall
  have hassign : isAssignment (c :: cs) = false := by
    unfold isAssignment valuePart
    rw [dropWhile_ne_of_not_mem hequals]
    rfl
  have hany : (c :: cs).any isExpressionChar = true := by
    simp [isExpressionChar, Char.isAlphanum, hc]
  unfold LineKind.of
  rw [if_neg hslash, hassign, hany]
  rfl

theorem Calculator.answer_of_isIdentifier {c : Calculator} {w : List Char} {v : Decimal}
    (hw : isIdentifier w = true) (hv : c.bindings.get? (String.ofList w) = some v) :
    (c.answer w).2.outcome = .ok (.value v) := by
  have hword := isWord_of_isIdentifier hw
  have htrim : trim w = w := trim_of_forall hword.not_isBlank
  have hne : w.isEmpty = false := List.isEmpty_eq_false_iff.mpr hword.ne_nil
  unfold answer answerTrimmed
  simp only [htrim, hne, LineKind.of_isIdentifier hw]
  show (c.calculate w).outcome.map Reply.value = _
  rw [calculate_of_isIdentifier hw hv]
  rfl

/-! ## lines of the listing -/

/-- the line that lists a binding -/
def listed (e : String × Decimal) : String := e.1 ++ " = " ++ e.2.plain

theorem Bindings.listing_eq (b : Bindings) : b.listing = b.entries.map listed := rfl

theorem toList_listed (e : String × Decimal) :
    (listed e).toList = (e.1.toList ++ [' ']) ++ '=' :: ' ' :: e.2.plain.toList := by
  unfold listed
  rw [String.toList_append, String.toList_append]
  simp

theorem equals_not_mem_target {name : String} (hname : isIdentifier name.toList = true) :
    '=' ∉ name.toList ++ [' '] := by
  intro h
  rcases List.mem_append.mp h with h | h
  · have hall := List.all_eq_true.mp (Bool.and_eq_true_iff.mp hname).2 '=' h
    cases hall
  · cases List.mem_singleton.mp h

theorem equals_not_mem_plain (v : Decimal) : '=' ∉ v.plain.toList := by
  intro h
  rcases Decimal.mem_plain h with h | h | h
  · cases h
  · cases h
  · cases h

/-- a literal behind a name and `=` is assigned to it -/
theorem assigns_of_ofLiteral? {name : String} (hname : isIdentifier name.toList = true)
    {t : List Char} {v : Decimal} (ht : '=' ∉ t) (h : Decimal.ofLiteral? (trim t) = some v)
    (value? : String → Option Decimal) :
    Assigns value? ((name.toList ++ [' ']) ++ '=' :: ' ' :: t) name v := by
  have htarget : trim (name.toList ++ [' ']) = name.toList := by
    rw [trim_concat_of_isBlank rfl, trim_of_forall (isWord_of_isIdentifier hname).not_isBlank]
  have hvalue : '=' ∉ ' ' :: t := List.not_mem_cons_of_ne_of_not_mem (by decide) ht
  refine .intro (equals_not_mem_target hname) hvalue htarget hname (.literal ?_)
  rwa [trim_cons_of_isBlank rfl]

section
variable {e : String × Decimal} (hname : isIdentifier e.1.toList = true)
include hname

/-- a listed line assigns the value that it shows -/
theorem assigns_listed (hscale : 0 ≤ e.2.scale) (value? : String → Option Decimal) :
    Assigns value? (listed e).toList e.1 e.2 := by
  have hblank : ∀ c ∈ e.2.plain.toList, isBlank c = false := by
    intro c hc
    rcases Decimal.mem_plain hc with h | rfl | rfl
    · exact isBlank_of_isDigit h
    · rfl
    · rfl
  rw [toList_listed]
  refine assigns_of_ofLiteral? hname (equals_not_mem_plain e.2) ?_ value?
  rw [trim_of_forall hblank, Decimal.ofLiteral?_plain, Decimal.spelledOut_of_nonneg hscale]

/-- a listed line has one name and one text only -/
theorem listed_eq {name text : String} (h : listed e = name ++ " = " ++ text) :
    name = e.1 ∧ text = e.2.plain := by
  have hchars : (e.1.toList ++ [' ']) ++ '=' :: ' ' :: e.2.plain.toList =
      (name.toList ++ [' ']) ++ '=' :: ' ' :: text.toList := by
    rw [← toList_listed, h, String.toList_append, String.toList_append]
    simp
  have hleft := targetPart_append (equals_not_mem_target hname) (' ' :: e.2.plain.toList)
  have hright := valuePart_append (equals_not_mem_target hname) (' ' :: e.2.plain.toList)
  rw [hchars] at hleft hright
  by_cases hmem : '=' ∈ name.toList ++ [' ']
  · -- a second `=` would stand in the value
    obtain ⟨a, b, hab, ha⟩ := List.eq_append_cons_of_mem hmem
    rw [hab, List.append_assoc, List.cons_append, valuePart_append ha] at hright
    have hin : '=' ∈ ' ' :: e.2.plain.toList := by
      rw [← hright]
      simp
    rcases List.mem_cons.mp hin with hspace | hplain
    · cases hspace
    · exact absurd hplain (equals_not_mem_plain e.2)
  · rw [targetPart_append hmem] at hleft
    rw [valuePart_append hmem] at hright
    exact ⟨String.toList_inj.mp (List.append_cancel_right hleft),
      String.toList_inj.mp (List.cons.inj hright).2⟩

end

/-! ## what may be in the store -/

/-- names are words, and no value has a negative scale -/
def Bindings.Listable (b : Bindings) : Prop :=
  ∀ name v, b.get? name = some v → isIdentifier name.toList = true ∧ 0 ≤ v.scale

theorem Bindings.Listable.set {b : Bindings} (hb : b.Listable) {line : List Char} {name : String}
    {v : Decimal} (h : Assigns b.get? line name v) : (b.set name v).Listable := by
  intro n w hw
  rw [Bindings.get?_set] at hw
  split at hw
  · next hn =>
    cases hw
    cases h with
    | intro _ _ _ hname hv =>
      refine ⟨hn ▸ hname, ?_⟩
      cases hv with
      | literal h => exact Decimal.scale_nonneg_of_ofLiteral? h
      | copy _ _ hv => exact (hb _ _ hv).2
  · exact hb n w hw

namespace Calculator

theorem listable_answer {c : Calculator} (hc : c.bindings.Listable) (line : List Char) :
    (c.answer line).1.bindings.Listable := by
  by_cases ha : ∃ name v, Assigns c.bindings.get? line name v
  · obtain ⟨name, v, ha⟩ := ha
    rw [answer_of_assigns ha]
    exact hc.set ha
  · rw [(answer_of_not_assigns fun name v h => ha ⟨name, v, h⟩).1]
    exact hc

theorem listable_after (scale : Int) (lines : List (List Char)) :
    ((fresh scale).after lines).bindings.Listable := by
  induction lines using List.reverseRecOn with
  | nil => exact nofun
  | append_singleton lines line ih =>
    rw [after_append]
    exact listable_answer ih line

/-! ## restoring a store -/

section
variable {b : Bindings} (hb : b.Listable) (scale : Int)
include hb

theorem entry_of_listable {e : String × Decimal} (he : e ∈ b.entries) :
    isIdentifier e.1.toList = true ∧ 0 ≤ e.2.scale :=
  hb e.1 e.2 (Bindings.get?_of_mem he)

/-- the first lines of the listing bind the first entries -/
theorem entries_after_listed {front back : List (String × Decimal)}
    (h : b.entries = front ++ back) :
    ((fresh scale).after (front.map fun e => (listed e).toList)).bindings.entries = front := by
  induction front using List.reverseRecOn generalizing back with
  | nil => rfl
  | append_singleton front e ih =>
    have hsplit : b.entries = front ++ e :: back := by
      rw [h, List.append_assoc, List.singleton_append]
    obtain ⟨hname, hscale⟩ := entry_of_listable hb (e := e) (by rw [hsplit]; simp)
    have hnew : e.1 ∉ front.map Prod.fst := by
      have hdistinct := b.distinct
      rw [hsplit, List.map_append, List.map_cons] at hdistinct
      have hdisjoint := (List.nodup_append.mp hdistinct).2.2
      exact fun hm => hdisjoint e.1 hm e.1 List.mem_cons_self rfl
    rw [List.map_append, List.map_singleton, after_append,
      answer_of_assigns (assigns_listed hname hscale _)]
    show putEntry e.1 e.2 _ = _
    rw [ih hsplit, putEntry_of_not_mem e.2 hnew]

end

theorem bindings_eq_of_entries {b b' : Bindings} (h : b.entries = b'.entries) : b = b' := by
  cases b
  cases b'
  cases h
  rfl

/-- **The listing restores the store.** -/
theorem listing_restores (scale : Int) (lines : List (List Char)) :
    let c := (fresh scale).after lines
    (c.bindings.names.Nodup ∧
      ∀ e ∈ c.bindings.entries, isIdentifier e.1.toList = true ∧ 0 ≤ e.2.scale) ∧
    (c.answer "/variables".toList).2.outcome = .ok (.lines c.bindings.listing) ∧
    (∀ line ∈ c.bindings.listing, ∃ name v, line = name ++ " = " ++ v.plain ∧
      (∀ name' text', line = name' ++ " = " ++ text' → name' = name ∧ text' = v.plain) ∧
      (c.answer name.toList).2.outcome = .ok (.value v)) ∧
    ∀ other : Int,
      (∀ front line back, c.bindings.listing = front ++ line :: back →
        (((fresh other).after (front.map String.toList)).answer line.toList).2.outcome =
          .ok .silent) ∧
      ((fresh other).after (c.bindings.listing.map String.toList)).bindings = c.bindings := by
  intro c
  have hc : c.bindings.Listable := listable_after scale lines
  refine ⟨⟨c.bindings.distinct, fun e he => entry_of_listable hc he⟩, rfl, ?_, fun other => ⟨?_, ?_⟩⟩
  · intro line hline
    rw [Bindings.listing_eq] at hline
    obtain ⟨e, he, rfl⟩ := List.mem_map.mp hline
    have hname := (entry_of_listable hc he).1
    refine ⟨e.1, e.2, rfl, fun name' text' h => listed_eq hname h, ?_⟩
    refine answer_of_isIdentifier hname ?_
    rw [String.ofList_toList]
    exact Bindings.get?_of_mem he
  · intro front line back h
    rw [Bindings.listing_eq] at h
    obtain ⟨es, rest, hes, rfl, hrest⟩ := List.map_eq_append_iff.mp h
    obtain ⟨e, es', rfl, rfl, -⟩ := List.map_eq_cons_iff.mp hrest
    obtain ⟨hname, hscale⟩ := entry_of_listable hc (e := e) (by rw [hes]; simp)
    rw [answer_of_assigns (assigns_listed hname hscale _)]
  · refine bindings_eq_of_entries ?_
    rw [Bindings.listing_eq, List.map_map]
    exact entries_after_listed hc other (List.append_nil _).symm

example : ((fresh 4).after (((fresh 20).after ["a = -0.50".toList, "b = a".toList,
    "c = + 007".toList]).bindings.listing.map String.toList)).bindings.entries =
    [("a", ⟨-50, 2⟩), ("b", ⟨-50, 2⟩), ("c", ⟨7, 0⟩)] := by decide +kernel

end Calculator

end DecimalCalculator
