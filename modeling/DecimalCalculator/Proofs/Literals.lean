import Mathlib
import DecimalCalculator.Proofs.Redisplay

/-!
# Literals on both paths

An assignment asks whether the whole text is a literal and hands it, without its blanks and without
a `+`, to a reader of plain decimals (`Decimal.readLiteral?`). An expression drops all blanks, folds
signs, reads unsigned words, and then negates the first number if a `-` stands in front of it. Both
find what the literal writes (`Decimal.Writes`): all its digits, and a place for each one behind the
point.

* `Decimal.Writes t v`      what a literal is and which decimal it writes, without an algorithm;
* `Decimal.ReadsPlain`      what is relied on of a reader: unsigned numbers, also behind a `-`;
* `readLiteral?_eq_some_iff`, `ofLiteral?_eq_some_iff`   reading finds what is written.
-/

namespace DecimalCalculator

namespace Decimal

/-! ## what a literal writes -/

/-- digits, or digits on both sides of a point: all of them, with a place for each behind it -/
inductive WritesUnsigned : List Char → Decimal → Prop
  | whole {a : List Char} (ha : isDigits a = true) : WritesUnsigned a ⟨Nat.ofDigitChars 10 a 0, 0⟩
  | point {a b : List Char} (ha : isDigits a = true) (hb : isDigits b = true) :
    WritesUnsigned (a ++ '.' :: b) ⟨Nat.ofDigitChars 10 (a ++ b) 0, b.length⟩

/-- an unsigned number with blanks in front, and at most one sign in front of these -/
inductive Writes : List Char → Decimal → Prop
  | unsigned {blanks u : List Char} {v : Decimal} (hblanks : ∀ c ∈ blanks, isBlank c = true)
    (hu : WritesUnsigned u v) : Writes (blanks ++ u) v
  | plus {blanks u : List Char} {v : Decimal} (hblanks : ∀ c ∈ blanks, isBlank c = true)
    (hu : WritesUnsigned u v) : Writes ('+' :: (blanks ++ u)) v
  | minus {blanks u : List Char} {v : Decimal} (hblanks : ∀ c ∈ blanks, isBlank c = true)
    (hu : WritesUnsigned u v) : Writes ('-' :: (blanks ++ u)) (-v)

theorem ofUnsigned?_eq_some_iff {u : List Char} {v : Decimal} :
    ofUnsigned? u = some v ↔ WritesUnsigned u v := by
  constructor
  · intro h
    rcases isUnsigned_iff.mp (isUnsigned_of_ofUnsigned? h) with hu | ⟨a, b, rfl, ha, hb⟩
    · rw [ofUnsigned?_of_isDigits hu] at h
      cases h
      exact .whole hu
    · rw [ofUnsigned?_point ha hb] at h
      cases h
      exact .point ha hb
  · intro h
    cases h with
    | whole ha => exact ofUnsigned?_of_isDigits ha
    | point ha hb => exact ofUnsigned?_point ha hb

theorem ofLiteral?_of_not_isSign {cs : List Char}
    (h : ∀ c, cs.head? = some c → isSign c = false) :
    ofLiteral? cs = ofUnsigned? (trimStart cs) := by
  cases cs with
  | nil => rfl
  | cons c cs =>
    refine ofLiteral?_cons (fun hs => ?_) cs
    rw [← isSign_iff, h c rfl] at hs
    exact Bool.false_ne_true hs

namespace WritesUnsigned

variable {u : List Char} {v : Decimal} (h : WritesUnsigned u v)
include h

theorem isUnsigned : isUnsigned u = true :=
  isUnsigned_of_ofUnsigned? (ofUnsigned?_eq_some_iff.mpr h)

theorem isWord : IsWord u := isWord_of_isUnsigned h.isUnsigned

theorem isSign_head {c : Char} (hc : u.head? = some c) : isSign c = false :=
  isSign_of_isWordChar (h.isWord.isWordChar c (List.mem_of_head? hc))

theorem trimStart_append {blanks : List Char} (hblanks : ∀ c ∈ blanks, isBlank c = true) :
    trimStart (blanks ++ u) = u := by
  obtain ⟨c, cs, rfl⟩ := List.exists_cons_of_ne_nil h.isWord.ne_nil
  have hc : isBlank c = false := h.isWord.not_isBlank c List.mem_cons_self
  rw [trimStart_append_cons hc, trimStart, List.dropWhile_eq_nil_iff.mpr hblanks, List.nil_append]

theorem trimEnd_append (l : List Char) : trimEnd (l ++ u) = l ++ u := by
  refine List.rdropWhile_eq_self_iff.mpr fun hne => ?_
  rw [List.getLast_append_of_ne_nil hne h.isWord.ne_nil,
    h.isWord.not_isBlank _ (List.getLast_mem h.isWord.ne_nil)]
  exact Bool.false_ne_true

theorem dropBlanks_append {blanks : List Char} (hblanks : ∀ c ∈ blanks, isBlank c = true) :
    dropBlanks (blanks ++ u) = u := by
  rw [← dropBlanks_trimStart, h.trimStart_append hblanks, dropBlanks_of_forall h.isWord.not_isBlank]

end WritesUnsigned

theorem ofLiteral?_eq_some_iff {t : List Char} {v : Decimal} :
    ofLiteral? t = some v ↔ Writes t v := by
  -- the blanks behind the sign, and the unsigned number behind them
  have hsplit (cs : List Char) : ∃ blanks, (∀ c ∈ blanks, isBlank c = true) ∧
      blanks ++ trimStart cs = cs :=
    ⟨cs.takeWhile isBlank, fun _ => List.mem_takeWhile_imp, List.takeWhile_append_dropWhile⟩
  constructor
  · intro h
    by_cases hs : ∃ s, t.head? = some s ∧ isSign s = true
    · obtain ⟨s, hhead, hs⟩ := hs
      obtain ⟨rest, rfl⟩ := List.head?_eq_some_iff.mp hhead
      obtain ⟨blanks, hblanks, hrest⟩ := hsplit rest
      rcases isSign_iff.mp hs with rfl | rfl
      · rw [ofLiteral?_plus] at h
        exact hrest ▸ .plus hblanks (ofUnsigned?_eq_some_iff.mp h)
      · rw [ofLiteral?_minus] at h
        obtain ⟨w, hu, rfl⟩ := Option.map_eq_some_iff.mp h
        exact hrest ▸ .minus hblanks (ofUnsigned?_eq_some_iff.mp hu)
    · obtain ⟨blanks, hblanks, hrest⟩ := hsplit t
      have hhead : ∀ s, t.head? = some s → isSign s = false :=
        fun s hhead => Bool.eq_false_of_not_eq_true fun h => hs ⟨s, hhead, h⟩
      rw [ofLiteral?_of_not_isSign hhead] at h
      exact hrest ▸ .unsigned hblanks (ofUnsigned?_eq_some_iff.mp h)
  · intro h
    cases h with
    | @unsigned blanks u v hblanks hu =>
      have hhead : ∀ c, (blanks ++ u).head? = some c → isSign c = false := by
        intro c hc
        cases blanks with
        | nil => exact hu.isSign_head hc
        | cons b blanks =>
          refine Bool.eq_false_of_not_eq_true fun hs => ?_
          have hblank := hblanks b List.mem_cons_self
          rw [Option.some.inj hc, isBlank_of_isSign hs] at hblank
          exact Bool.false_ne_true hblank
      rw [ofLiteral?_of_not_isSign hhead, hu.trimStart_append hblanks, ofUnsigned?_eq_some_iff]
      exact hu
    | @plus blanks u v hblanks hu =>
      rw [ofLiteral?_plus, hu.trimStart_append hblanks, ofUnsigned?_eq_some_iff]
      exact hu
    | @minus blanks u v hblanks hu =>
      show (ofUnsigned? (trimStart (blanks ++ u))).map neg = some (-v)
      rw [hu.trimStart_append hblanks, ofUnsigned?_eq_some_iff.mpr hu]
      rfl

namespace Writes

variable {t : List Char} {v : Decimal}

/-- trimming takes off blanks in front of the number only -/
theorem trim (h : Writes t v) : Writes (trim t) v := by
  have hstart {s : Char} (hs : isSign s = true) (cs : List Char) : trimStart (s :: cs) = s :: cs :=
    trimStart_append_cons (isBlank_of_isSign hs) [] cs
  unfold DecimalCalculator.trim
  cases h with
  | @unsigned blanks u v hblanks hu =>
    rw [hu.trimStart_append hblanks, ← List.nil_append u, hu.trimEnd_append]
    exact .unsigned (fun _ h => by cases h) hu
  | @plus blanks u v hblanks hu =>
    rw [hstart rfl, ← List.cons_append, hu.trimEnd_append]
    exact .plus hblanks hu
  | @minus blanks u v hblanks hu =>
    rw [hstart rfl, ← List.cons_append, hu.trimEnd_append]
    exact .minus hblanks hu

theorem equals_not_mem (h : Writes t v) : '=' ∉ t :=
  Token.equals_not_mem_of_ofText (Token.ofText_of_ofLiteral? (ofLiteral?_eq_some_iff.mpr h))

end Writes

/-! ## reading with a reader of plain decimals -/

/-- without a `+` in front -/
def dropPlus : List Char → List Char
  | '+' :: cs => cs
  | cs => cs

/-- the number of a literal: its characters without blanks and without a `+` are read -/
def readLiteral? (read? : List Char → Option Decimal) (cs : List Char) : Option Decimal :=
  if isLiteral cs then read? (dropPlus (dropBlanks cs)) else none

/-- a reader keeps the digits and the scale of an unsigned number, also behind a `-` -/
structure ReadsPlain (read? : List Char → Option Decimal) : Prop where
  unsigned : ∀ {u v}, WritesUnsigned u v → read? u = some v
  minus : ∀ {u v}, WritesUnsigned u v → read? ('-' :: u) = some (-v)

theorem dropPlus_of_ne {cs : List Char} (h : cs.head? ≠ some '+') : dropPlus cs = cs := by
  unfold dropPlus
  split
  · exact absurd rfl h
  · rfl

section
variable {read? : List Char → Option Decimal} (hread : ReadsPlain read?) {t : List Char}
  {v : Decimal}
include hread

theorem readLiteral?_of_writes (h : Writes t v) : readLiteral? read? t = some v := by
  have hliteral : isLiteral t = true := isLiteral_of_ofLiteral? (ofLiteral?_eq_some_iff.mpr h)
  unfold readLiteral?
  rw [if_pos hliteral]
  cases h with
  | @unsigned blanks u v hblanks hu =>
    have hplus : u.head? ≠ some '+' := fun hc => Bool.false_ne_true (hu.isSign_head hc).symm
    rw [hu.dropBlanks_append hblanks, dropPlus_of_ne hplus, hread.unsigned hu]
  | @plus blanks u v hblanks hu =>
    rw [dropBlanks_cons_of_not_isBlank rfl, hu.dropBlanks_append hblanks]
    exact hread.unsigned hu
  | @minus blanks u v hblanks hu =>
    rw [dropBlanks_cons_of_not_isBlank rfl, hu.dropBlanks_append hblanks]
    exact hread.minus hu

/-- a reader finds what the literal writes -/
theorem readLiteral?_eq_some_iff : readLiteral? read? t = some v ↔ Writes t v := by
  refine ⟨fun h => ?_, readLiteral?_of_writes hread⟩
  have hliteral : isLiteral t = true := by
    by_contra hn
    unfold readLiteral? at h
    rw [if_neg hn] at h
    cases h
  rw [← ofLiteral?_isSome] at hliteral
  obtain ⟨w, hw⟩ := Option.isSome_iff_exists.mp hliteral
  have hwrites := ofLiteral?_eq_some_iff.mp hw
  rw [readLiteral?_of_writes hread hwrites] at h
  exact Option.some.inj h ▸ hwrites

theorem readLiteral?_eq_ofLiteral? : readLiteral? read? t = ofLiteral? t :=
  Option.ext fun _ => (readLiteral?_eq_some_iff hread).trans ofLiteral?_eq_some_iff.symm

end

/-- the reader of unsigned numbers and of these behind a `-` -/
def ofPlain? : List Char → Option Decimal
  | '-' :: u => (ofUnsigned? u).map neg
  | u => ofUnsigned? u

theorem readsPlain_ofPlain? : ReadsPlain ofPlain? := by
  constructor
  · intro u v h
    have hminus : u.head? ≠ some '-' := fun hc => Bool.false_ne_true (h.isSign_head hc).symm
    unfold ofPlain?
    split
    · exact absurd rfl hminus
    · exact ofUnsigned?_eq_some_iff.mpr h
  · intro u v h
    show (ofUnsigned? u).map neg = some (-v)
    rw [ofUnsigned?_eq_some_iff.mpr h]
    rfl

end Decimal

/-! ## words -/

/-- the token of a word whose numbers are read by a reader, and refused if it reads none -/
def Token.readWord (read? : List Char → Option Decimal) (unparsable : Rejection) (w : List Char) :
    Except Rejection Token :=
  if Decimal.isUnsigned w then
    match Decimal.readLiteral? read? w with
    | some v => .ok (.number v)
    | none => .error unparsable
  else if isIdentifier w then .ok (.identifier (String.ofList w))
  else .error (.invalidExpression (.malformedWord (String.ofList w)))

/-- a reader reads every unsigned word -/
theorem Token.readWord_eq {read? : List Char → Option Decimal} (hread : Decimal.ReadsPlain read?)
    (unparsable : Rejection) (w : List Char) : readWord read? unparsable w = ofWord w := by
  unfold readWord ofWord Decimal.ofUnsigned?
  split
  · next hw =>
    have hv : Decimal.ofUnsigned? w = some (Decimal.unsignedValue w) := if_pos hw
    rw [Decimal.readLiteral?_eq_ofLiteral? hread, Decimal.ofLiteral?_of_unsigned hv]
  · rfl

/-! ## assignments -/

theorem assigns_of_writes {name : String} (hname : isIdentifier name.toList = true) {t : List Char}
    {v : Decimal} (h : Decimal.Writes t v) (value? : String → Option Decimal) :
    Assigns value? ((name ++ " = ").toList ++ t) name v := by
  have hline : (name ++ " = ").toList ++ t = (name.toList ++ [' ']) ++ '=' :: ' ' :: t := by
    rw [String.toList_append]
    simp
  rw [hline]
  exact assigns_of_ofLiteral? hname h.equals_not_mem (Decimal.ofLiteral?_eq_some_iff.mpr h.trim)
    value?

namespace Calculator

/-- **Assignments and expressions read the same numbers.** Exactly the literals are read, each as
the decimal that it writes. As an expression a literal has this value, and a name that it is
assigned to has it from then on. No unsigned word is left unread. -/
theorem literals_read_alike {read? : List Char → Option Decimal} (hread : Decimal.ReadsPlain read?)
    (t : List Char) :
    (Decimal.readLiteral? read? t).isSome = Decimal.isLiteral t ∧
    (∀ v, Decimal.readLiteral? read? t = some v ↔ Decimal.Writes t v) ∧
    Decimal.readLiteral? read? t = Decimal.ofLiteral? t ∧
    (∀ v, Decimal.readLiteral? read? t = some v → ∀ c : Calculator,
      (c.calculate t).outcome = .ok v ∧
      ∀ name : String, isIdentifier name.toList = true →
        let r := c.answer ((name ++ " = ").toList ++ t)
        r.2.outcome = .ok .silent ∧ (r.1.calculate name.toList).outcome = .ok v ∧
          (r.1.answer name.toList).2.outcome = .ok (.value v)) ∧
    ∀ unparsable, Token.readWord read? unparsable t = Token.ofWord t := by
  have heq : Decimal.readLiteral? read? t = Decimal.ofLiteral? t :=
    Decimal.readLiteral?_eq_ofLiteral? hread
  refine ⟨?_, fun v => Decimal.readLiteral?_eq_some_iff hread, heq, ?_,
    fun unparsable => Token.readWord_eq hread unparsable t⟩
  · rw [heq, Decimal.ofLiteral?_isSome]
  · intro v hv c
    have hwrites := (Decimal.readLiteral?_eq_some_iff hread).mp hv
    refine ⟨calculate_of_ofLiteral? c (heq ▸ hv), ?_⟩
    intro name hname
    have hanswer := answer_of_assigns (assigns_of_writes hname hwrites c.bindings.get?)
    have hget : (c.bindings.set name v).get? (String.ofList name.toList) = some v := by
      rw [String.ofList_toList, Bindings.get?_set, if_pos rfl]
    dsimp only
    rw [hanswer]
    exact ⟨rfl, calculate_of_isIdentifier hname hget, answer_of_isIdentifier hname hget⟩

theorem literals_read_alike_signed :
    Decimal.ReadsPlain Decimal.ofPlain? ∧
      Decimal.readLiteral? Decimal.ofPlain? "- 007.50".toList = some ⟨-750, 2⟩ ∧
      ((fresh 20).calculate "- 007.50".toList).outcome = .ok ⟨-750, 2⟩ := by
  obtain ⟨-, -, -, hpaths, -⟩ :=
    literals_read_alike Decimal.readsPlain_ofPlain? "- 007.50".toList
  have hv : Decimal.readLiteral? Decimal.ofPlain? "- 007.50".toList = some ⟨-750, 2⟩ := by decide
  exact ⟨Decimal.readsPlain_ofPlain?, hv, (hpaths _ hv (fresh 20)).1⟩

end Calculator

end DecimalCalculator
