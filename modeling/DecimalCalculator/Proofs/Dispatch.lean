import Mathlib
import DecimalCalculator.Proofs.Causes
import DecimalCalculator.Proofs.Listing
import DecimalCalculator.Proofs.Token.Origin

/-!
# Which line gets which answer

`Answered c t o` lists the ways in which the text `t` of a line can be answered with `o`: each
command, an unknown command, an assignment that is made and one that is not, the value of an
expression and its refusal. The kinds of lines and their handlers do not split the lines in the same
places (a line with `=` may be taken for an expression, and is refused by its tokens), but every
answer is one of these (`Calculator.answered`), and the text alone says which
(`Calculator.dispatched`).
-/

namespace DecimalCalculator

/-! ## commands -/

section
variable {t : List Char}

theorem LineKind.of_eq_command_iff : LineKind.of t = .command ↔ t.head? = some '/' := by
  unfold LineKind.of
  split
  · next h => exact iff_of_true rfl h
  · next h => exact iff_of_false (by split_ifs <;> exact nofun) h

theorem LineKind.of_eq_assignment_iff :
    LineKind.of t = .assignment ↔ t.head? ≠ some '/' ∧ isAssignment t = true := by
  unfold LineKind.of
  split_ifs with hslash hassign
  · exact iff_of_false nofun fun h => h.1 hslash
  · exact iff_of_true rfl ⟨hslash, hassign⟩
  · exact iff_of_false nofun fun h => hassign h.2
  · exact iff_of_false nofun fun h => hassign h.2

theorem equals_mem_of_isAssignment (h : isAssignment t = true) : '=' ∈ t := by
  by_contra hn
  unfold isAssignment valuePart at h
  rw [dropWhile_ne_of_not_mem hn] at h
  cases h

end

/-! ## assignments -/

/-- one `=` between a name and a literal or the name of a variable -/
def Assignable (b : Bindings) (t : List Char) : Prop :=
  ∃ l r, t = l ++ '=' :: r ∧ '=' ∉ l ∧ '=' ∉ r ∧ isIdentifier (trim l) = true ∧
    (Decimal.isLiteral (trim r) = true ∨ String.ofList (trim r) ∈ b.names)

theorem Bindings.mem_names_iff {b : Bindings} {name : String} :
    name ∈ b.names ↔ ∃ v, b.get? name = some v := by
  constructor
  · intro h
    obtain ⟨e, he, rfl⟩ := List.mem_map.mp h
    exact ⟨e.2, b.get?_of_mem he⟩
  · rintro ⟨v, hv⟩
    obtain ⟨front, back, hb, -⟩ := List.lookup_eq_some_iff.mp hv
    exact List.mem_map.mpr ⟨(name, v), by rw [hb]; simp, rfl⟩

/-- in a store whose names are words, these are the lines that assign -/
theorem assignable_iff {b : Bindings} (hb : b.Listable) {t : List Char} :
    Assignable b t ↔ ∃ name v, Assigns b.get? t name v := by
  constructor
  · rintro ⟨l, r, rfl, hl, hr, hname, hvalue⟩
    have hto : (String.ofList (trim l)).toList = trim l := String.toList_ofList
    have hid : isIdentifier (String.ofList (trim l)).toList = true := by rwa [hto]
    rcases hvalue with hliteral | hbound
    · obtain ⟨v, hv⟩ := Option.isSome_iff_exists.mp ((Decimal.ofLiteral?_isSome _).trans hliteral)
      exact ⟨_, v, .intro hl hr hto.symm hid (.literal hv)⟩
    · obtain ⟨v, hv⟩ := Bindings.mem_names_iff.mp hbound
      have hsource := (hb _ v hv).1
      rw [String.toList_ofList] at hsource
      exact ⟨_, v, .intro hl hr hto.symm hid (.copy String.toList_ofList.symm hsource hv)⟩
  · rintro ⟨name, v, h⟩
    cases h with
    | @intro l r name v hl hr htarget hname hv =>
      refine ⟨l, r, rfl, hl, hr, by rwa [htarget], ?_⟩
      cases hv with
      | literal h => exact Or.inl (Decimal.isLiteral_of_ofLiteral? h)
      | copy hsource _ hv =>
        rw [hsource, String.ofList_toList]
        exact Or.inr (Bindings.mem_names_iff.mpr ⟨v, hv⟩)

theorem assigns_trim_iff {b : Bindings} {line : List Char} {name : String} {v : Decimal} :
    Assigns b.get? (trim line) name v ↔ Assigns b.get? line name v := by
  rw [← assignmentOf_eq_ok_iff, assignmentOf_trim, assignmentOf_eq_ok_iff]

/-! ## answers -/

/-- the ways in which a text is answered -/
inductive Answered (c : Calculator) (t : List Char) : Except Rejection Reply → Prop
  | blank (h : t = []) : Answered c t (.ok .silent)
  | exit (h : t = "/exit".toList) : Answered c t (.ok .farewell)
  | help (h : t = "/help".toList) : Answered c t (.ok (.lines helpLines))
  | listing (h : t = "/variables".toList) : Answered c t (.ok (.lines c.bindings.listing))
  | unknown (hslash : t.head? = some '/') (h : ∀ k : Command, t ≠ k.text.toList) :
    Answered c t (.error .unknownCommand)
  | assigned {name : String} {v : Decimal} (hslash : t.head? ≠ some '/') (hequals : '=' ∈ t)
    (h : Assigns c.bindings.get? t name v) : Answered c t (.ok .silent)
  | unassigned {e : Rejection} (hslash : t.head? ≠ some '/') (hequals : '=' ∈ t)
    (h : ∀ name v, ¬Assigns c.bindings.get? t name v) (he : e ≠ .unknownCommand) :
    Answered c t (.error e)
  | value {v : Decimal} (hslash : t.head? ≠ some '/') (hequals : '=' ∉ t) :
    Answered c t (.ok (.value v))
  | refused {e : Rejection} (hslash : t.head? ≠ some '/') (hequals : '=' ∉ t) (he : e.IsCaused) :
    Answered c t (.error e)

theorem Rejection.IsCaused.ne_unknownCommand {e : Rejection} (h : e.IsCaused) :
    e ≠ .unknownCommand := by
  rintro rfl
  obtain ⟨cause, hc⟩ := h
  cases hc

namespace Answered

variable {c : Calculator} {t : List Char} {o : Except Rejection Reply}

theorem of_farewell (h : Answered c t (.ok .farewell)) : t = "/exit".toList := by
  cases h with
  | exit ht => exact ht

theorem of_lines {texts : List String} (h : Answered c t (.ok (.lines texts))) :
    t = "/help".toList ∨ t = "/variables".toList := by
  cases h with
  | help ht => exact Or.inl ht
  | listing ht => exact Or.inr ht

theorem of_unknownCommand (h : Answered c t (.error .unknownCommand)) :
    t.head? = some '/' ∧ ∀ k : Command, t ≠ k.text.toList := by
  cases h with
  | unknown hslash hne => exact ⟨hslash, hne⟩
  | unassigned _ _ _ he => exact absurd rfl he
  | refused _ _ he => exact absurd rfl he.ne_unknownCommand

theorem of_value {v : Decimal} (h : Answered c t (.ok (.value v))) :
    t.head? ≠ some '/' ∧ '=' ∉ t := by
  cases h with
  | value hslash hequals => exact ⟨hslash, hequals⟩

/-- a refusal without a cause is that of a command or of an assignment -/
theorem equals_mem {e : Rejection} (h : Answered c t (.error e)) (hcommand : e ≠ .unknownCommand)
    (he : ¬e.IsCaused) : '=' ∈ t := by
  cases h with
  | unknown => exact absurd rfl hcommand
  | unassigned _ hequals => exact hequals
  | refused _ _ hc => exact absurd hc he

variable (h : Answered c t o)
include h

theorem of_slash (hslash : t.head? = some '/') :
    (∃ k : Command, t = k.text.toList) ∨ o = .error .unknownCommand := by
  cases h with
  | blank ht => rw [ht] at hslash; cases hslash
  | exit ht => exact Or.inl ⟨.exit, ht⟩
  | help ht => exact Or.inl ⟨.help, ht⟩
  | listing ht => exact Or.inl ⟨.variables, ht⟩
  | unknown _ _ => exact Or.inr rfl
  | assigned hne | unassigned hne | value hne | refused hne => exact absurd hslash hne

theorem of_equals (hslash : t.head? ≠ some '/') (hequals : '=' ∈ t) :
    (o = .ok .silent ∧ ∃ name v, Assigns c.bindings.get? t name v) ∨
      ((∃ e, o = .error e) ∧ ∀ name v, ¬Assigns c.bindings.get? t name v) := by
  cases h with
  | blank ht => rw [ht] at hequals; cases hequals
  | exit ht | help ht | listing ht => rw [ht] at hslash; exact absurd rfl hslash
  | unknown hs _ => exact absurd hs hslash
  | assigned _ _ ha => exact Or.inl ⟨rfl, _, _, ha⟩
  | unassigned _ _ hn _ => exact Or.inr ⟨⟨_, rfl⟩, hn⟩
  | value _ hn | refused _ hn _ => exact absurd hequals hn

end Answered

namespace Calculator

theorem equals_not_mem_of_calculate {c : Calculator} {t : List Char} {v : Decimal}
    (h : (c.calculate t).outcome = .ok v) : '=' ∉ t := by
  obtain ⟨ts, -, hts, -, -⟩ := calculate_eq_ok_iff.mp h
  exact Token.equals_not_mem_of_ofText hts

theorem answered_execute (c : Calculator) {t : List Char} (h : t.head? = some '/') :
    Answered c t (c.execute t) := by
  unfold execute
  cases hk : Command.ofText t with
  | error e =>
    obtain ⟨rfl, hne⟩ := Command.ofText_eq_error hk
    exact .unknown h hne
  | ok k =>
    have ht := Command.ofText_eq_ok hk
    rcases k with _ | _ | _
    · exact .exit ht
    · exact .help ht
    · exact .listing ht

/-- a refusal of a line that is not taken for an assignment -/
theorem answered_error (c : Calculator) {line : List Char} {e : Rejection}
    (hslash : (trim line).head? ≠ some '/') (hkind : LineKind.of (trim line) ≠ .assignment)
    (he : e.IsCaused) : Answered c (trim line) (.error e) := by
  by_cases hequals : '=' ∈ trim line
  · refine .unassigned hslash hequals (fun name v ha => hkind ?_) he.ne_unknownCommand
    exact LineKind.of_assigns (assigns_trim_iff.mp ha)
  · exact .refused hslash hequals he

/-- every answer is one of those -/
theorem answered (c : Calculator) (line : List Char) :
    Answered c (trim line) (c.answer line).2.outcome := by
  by_cases hne : trim line = []
  · rw [answer_of_blank c hne]
    exact .blank hne
  rw [answer_of_ne_nil c hne]
  by_cases hslash : (trim line).head? = some '/'
  · rw [answerTrimmed_of_command c (LineKind.of_eq_command_iff.mpr hslash)]
    exact answered_execute c hslash
  cases hk : LineKind.of (trim line) with
  | command => exact absurd (LineKind.of_eq_command_iff.mp hk) hslash
  | assignment =>
    have hequals := equals_mem_of_isAssignment (LineKind.of_eq_assignment_iff.mp hk).2
    cases ha : assignmentOf c.bindings (trim line) with
    | ok p =>
      rw [answerTrimmed_of_assigned c hk ha]
      exact .assigned hslash hequals (assignmentOf_eq_ok_iff.mp ha)
    | error e =>
      rw [answerTrimmed_of_not_assigned c hk ha]
      refine .unassigned hslash hequals (fun name v hv => ?_) ?_
      · rw [assignmentOf_eq_ok_iff.mpr hv] at ha
        cases ha
      · rintro rfl
        obtain h | h | ⟨name, h⟩ := assignmentOf_eq_error ha <;> cases h
  | expression =>
    rw [answerTrimmed_of_expression c hk]
    show Answered c (trim line) ((c.calculate (trim line)).outcome.map Reply.value)
    cases hv : (c.calculate (trim line)).outcome with
    | ok v => exact .value hslash (equals_not_mem_of_calculate hv)
    | error e =>
      exact answered_error c hslash (by rw [hk]; exact nofun)
        ((explains_calculate c (trim line)).of_error e hv).1
  | invalid =>
    rw [answerTrimmed_of_invalid c hk]
    exact answered_error c hslash (by rw [hk]; exact nofun) (Rejection.isCaused_invalidExpression _)

theorem answer_of_command_text (c : Calculator) {line : List Char} {k : Command}
    (h : trim line = k.text.toList) : (c.answer line).2.outcome = c.execute k.text.toList := by
  have hne : trim line ≠ [] := by
    rw [h]
    cases k <;> exact nofun
  have hslash : LineKind.of (trim line) = .command := by
    rw [h]
    cases k <;> rfl
  rw [answer_of_ne_nil c hne, answerTrimmed_of_command c hslash, h]
  rfl

/-- **The text of a line says how it is answered.** -/
theorem dispatched (scale : Int) (lines : List (List Char)) (line : List Char) :
    let c := (fresh scale).after lines
    let t := trim line
    let outcome := (c.answer line).2.outcome
    (outcome = .ok .farewell ↔ t = "/exit".toList) ∧
    ((∃ texts, outcome = .ok (.lines texts)) ↔ t = "/help".toList ∨ t = "/variables".toList) ∧
    (outcome = .error .unknownCommand ↔ t.head? = some '/' ∧
      t ≠ "/exit".toList ∧ t ≠ "/help".toList ∧ t ≠ "/variables".toList) ∧
    (t.head? ≠ some '/' → '=' ∈ t →
      (outcome = .ok .silent ↔ Assignable c.bindings t) ∧
      (¬Assignable c.bindings t → (∃ e, outcome = .error e) ∧ (c.answer line).1 = c)) ∧
    (∀ v, outcome = .ok (.value v) → t.head? ≠ some '/' ∧ '=' ∉ t) ∧
    (outcome = .error .invalidIdentifier ∨ outcome = .error .invalidAssignment → '=' ∈ t) ∧
    (t = [] → outcome = .ok .silent) := by
  intro c t outcome
  have hanswered : ∀ {o}, outcome = o → Answered c t o := fun h => h ▸ answered c line
  have hassignable : Assignable c.bindings t ↔ ∃ name v, Assigns c.bindings.get? t name v :=
    assignable_iff (listable_after scale lines)
  refine ⟨⟨fun h => (hanswered h).of_farewell, ?_⟩, ⟨?_, ?_⟩, ⟨?_, ?_⟩, ?_,
    fun v h => (hanswered h).of_value, ?_, ?_⟩
  · exact fun h => answer_of_command_text c (k := .exit) h
  · rintro ⟨texts, h⟩
    exact (hanswered h).of_lines
  · rintro (h | h)
    · exact ⟨helpLines, answer_of_command_text c (k := .help) h⟩
    · exact ⟨c.bindings.listing, answer_of_command_text c (k := .variables) h⟩
  · intro h
    obtain ⟨hslash, hne⟩ := (hanswered h).of_unknownCommand
    exact ⟨hslash, hne .exit, hne .help, hne .variables⟩
  · rintro ⟨hslash, hexit, hhelp, hvariables⟩
    refine ((hanswered rfl).of_slash hslash).resolve_left ?_
    rintro ⟨_ | _ | _, ht⟩
    · exact hexit ht
    · exact hhelp ht
    · exact hvariables ht
  · intro hslash hequals
    rw [hassignable]
    rcases (hanswered rfl).of_equals hslash hequals with ⟨ho, ha⟩ | ⟨⟨e, ho⟩, hn⟩
    · exact ⟨iff_of_true ho ha, fun hn => absurd ha hn⟩
    · refine ⟨iff_of_false (by rw [ho]; exact nofun) fun ⟨name, v, ha⟩ => hn name v ha, fun _ => ?_⟩
      exact ⟨⟨e, ho⟩, (answer_of_not_assigns fun name v ha => hn name v (assigns_trim_iff.mpr ha)).1⟩
  · rintro (h | h)
    · exact (hanswered h).equals_mem nofun nofun
    · exact (hanswered h).equals_mem nofun nofun
  · intro h
    show (c.answer line).2.outcome = _
    rw [answer_of_blank c h]
    rfl

end Calculator

end DecimalCalculator
