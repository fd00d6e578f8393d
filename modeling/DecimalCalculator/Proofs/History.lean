import Mathlib
import DecimalCalculator.Calculator
import DecimalCalculator.Proofs.Assignment

/-!
# Variables are the history of assignments

`Recorded lines h` reads off the lines alone which bindings they make, `h` with the oldest first: a
copied variable has the value that the lines before gave it. The calculator keeps of that history
the names in the order of their first assignment and for each the value of its last
(`Calculator.bindings_after`). One line changes at most one binding, and only a line that assigns
changes anything.
-/

namespace DecimalCalculator

/-! ## histories -/

/-- the value of the last binding of a name -/
def lastValue (h : List (String × Decimal)) (name : String) : Option Decimal :=
  h.reverse.lookup name

/-- the names in the order of their first binding -/
def firstNames (h : List (String × Decimal)) : List String := (h.map Prod.fst).eraseDups

/-- the bindings that lines make, one line after the other -/
inductive Recorded : List (List Char) → List (String × Decimal) → Prop
  | start : Recorded [] []
  | assigned {lines : List (List Char)} {h : List (String × Decimal)} {line : List Char}
    {name : String} {v : Decimal} (hr : Recorded lines h)
    (ha : Assigns (lastValue h) line name v) : Recorded (lines ++ [line]) (h ++ [(name, v)])
  | passed {lines : List (List Char)} {h : List (String × Decimal)} {line : List Char}
    (hr : Recorded lines h) (hn : ∀ name v, ¬Assigns (lastValue h) line name v) :
    Recorded (lines ++ [line]) h

theorem lastValue_append (h : List (String × Decimal)) (name : String) (v : Decimal) (n : String) :
    lastValue (h ++ [(name, v)]) n = if n = name then some v else lastValue h n := by
  unfold lastValue
  rw [List.reverse_append, List.reverse_singleton, List.singleton_append, lookup_entry]

theorem firstNames_append (h : List (String × Decimal)) (name : String) (v : Decimal) :
    firstNames (h ++ [(name, v)]) =
      if name ∈ firstNames h then firstNames h else firstNames h ++ [name] := by
  unfold firstNames
  rw [List.map_append, List.eraseDups_append]
  by_cases hm : name ∈ h.map Prod.fst
  · rw [if_pos (List.mem_eraseDups.mpr hm)]
    simp [List.removeAll, hm]
  · rw [if_neg fun hm' => hm (List.mem_eraseDups.mp hm')]
    simp [List.removeAll, hm, List.eraseDups_cons]

/-! ## one line -/

/-- one binding is changed in its place, or a new one comes last; the others stay -/
def Bindings.Binds (b : Bindings) (name : String) (v : Decimal) (b' : Bindings) : Prop :=
  (∃ front old back, b.entries = front ++ (name, old) :: back ∧
    b'.entries = front ++ (name, v) :: back) ∨
  (name ∉ b.names ∧ b'.entries = b.entries ++ [(name, v)])

theorem putEntry_of_mem {name : String} {es : List (String × Decimal)} (v : Decimal)
    (h : name ∈ es.map Prod.fst) : ∃ front old back, es = front ++ (name, old) :: back ∧
      putEntry name v es = front ++ (name, v) :: back := by
  induction es with
  | nil => cases h
  | cons e es ih =>
    obtain ⟨n, w⟩ := e
    by_cases hn : n = name
    · subst hn
      exact ⟨[], w, es, rfl, if_pos rfl⟩
    · have hm : name ∈ es.map Prod.fst := by
        rw [List.map_cons, List.mem_cons] at h
        exact h.resolve_left (Ne.symm hn)
      obtain ⟨front, old, back, hes, hput⟩ := ih hm
      refine ⟨(n, w) :: front, old, back, by rw [hes]; rfl, ?_⟩
      rw [putEntry_cons, if_neg hn, hput]
      rfl

theorem putEntry_of_not_mem {name : String} {es : List (String × Decimal)} (v : Decimal)
    (h : name ∉ es.map Prod.fst) : putEntry name v es = es ++ [(name, v)] := by
  induction es with
  | nil => rfl
  | cons e es ih =>
    obtain ⟨n, w⟩ := e
    rw [List.map_cons, List.mem_cons, not_or] at h
    rw [putEntry_cons, if_neg (Ne.symm h.1), ih h.2]
    rfl

theorem Bindings.binds_set (b : Bindings) (name : String) (v : Decimal) :
    b.Binds name v (b.set name v) := by
  by_cases h : name ∈ b.names
  · exact Or.inl (putEntry_of_mem v h)
  · exact Or.inr ⟨h, putEntry_of_not_mem v h⟩

theorem Bindings.assign_of_assigns {b : Bindings} {line : List Char} {name : String} {v : Decimal}
    (h : Assigns b.get? line name v) :
    b.assign (trim line) = ⟨[.assigned name v], .ok (b.set name v)⟩ := by
  unfold Bindings.assign
  rw [assignmentOf_trim, assignmentOf_eq_ok_iff.mpr h]

theorem Bindings.assign_of_not_assigns {b : Bindings} {line : List Char}
    (h : ∀ name v, ¬Assigns b.get? line name v) :
    ∃ e, b.assign (trim line) = .silent (.error e) := by
  unfold Bindings.assign
  rw [assignmentOf_trim]
  cases hp : assignmentOf b line with
  | error e => exact ⟨e, rfl⟩
  | ok p => exact absurd (assignmentOf_eq_ok_iff.mp hp) (h p.1 p.2)

namespace Calculator

theorem execute_ne_silent (c : Calculator) (line : List Char) : c.execute line ≠ .ok .silent := by
  intro h
  obtain ⟨k, _, hk⟩ := map_eq_ok_iff.mp h
  cases k <;> cases hk

/-- a line that assigns binds its name and is answered silently -/
theorem answer_of_assigns {c : Calculator} {line : List Char} {name : String} {v : Decimal}
    (h : Assigns c.bindings.get? line name v) :
    c.answer line = (⟨c.bindings.set name v, c.scale⟩, ⟨[.assigned name v], .ok .silent⟩) := by
  have hkind : LineKind.of (trim line) = .assignment := LineKind.of_assigns h
  have hne : (trim line).isEmpty = false := List.isEmpty_eq_false_iff.mpr h.trim_ne_nil
  unfold answer answerTrimmed
  simp only [hne, hkind, Bindings.assign_of_assigns h]
  rfl

/-- a line that does not assign changes nothing, and only a blank one is answered silently -/
theorem answer_of_not_assigns {c : Calculator} {line : List Char}
    (h : ∀ name v, ¬Assigns c.bindings.get? line name v) :
    (c.answer line).1 = c ∧
      ((c.answer line).2.outcome = .ok .silent → trim line = []) := by
  by_cases hne : trim line = []
  · unfold answer
    rw [hne]
    exact ⟨rfl, fun _ => rfl⟩
  have hanswer : c.answer line = c.answerTrimmed (trim line) := by
    unfold answer
    rw [if_neg (fun he => hne (List.isEmpty_iff.mp he))]
  obtain ⟨e, he⟩ := Bindings.assign_of_not_assigns h
  rw [hanswer]
  unfold answerTrimmed
  cases LineKind.of (trim line) with
  | command => exact ⟨rfl, fun hs => absurd hs (c.execute_ne_silent _)⟩
  | assignment =>
    simp only [he]
    refine ⟨rfl, ?_⟩
    intro hs
    cases hs
  | expression =>
    refine ⟨rfl, ?_⟩
    intro hs
    obtain ⟨v, _, hv⟩ := map_eq_ok_iff.mp hs
    cases hv
  | invalid =>
    refine ⟨rfl, ?_⟩
    intro hs
    cases hs

/-! ## runs -/

/-- the calculator behind lines -/
def after (c : Calculator) (lines : List (List Char)) : Calculator :=
  lines.foldl (fun c line => (c.answer line).1) c

theorem after_append (c : Calculator) (lines : List (List Char)) (line : List Char) :
    c.after (lines ++ [line]) = ((c.after lines).answer line).1 := by
  unfold after
  rw [List.foldl_append]
  rfl

end Calculator

/-- the bindings are what is left of a history -/
structure Bindings.Reflects (b : Bindings) (h : List (String × Decimal)) : Prop where
  names_eq : b.names = firstNames h
  get?_eq : b.get? = lastValue h

theorem Bindings.Reflects.set {b : Bindings} {h : List (String × Decimal)} (hb : b.Reflects h)
    (name : String) (v : Decimal) : (b.set name v).Reflects (h ++ [(name, v)]) := by
  constructor
  · rw [Bindings.names_set, firstNames_append, hb.names_eq]
  · funext n
    rw [Bindings.get?_set, lastValue_append, hb.get?_eq]

namespace Calculator

theorem reflects_after (scale : Int) {lines : List (List Char)} {h : List (String × Decimal)}
    (hr : Recorded lines h) : ((fresh scale).after lines).bindings.Reflects h := by
  induction hr with
  | start => exact ⟨rfl, rfl⟩
  | @assigned lines h line name v hr ha ih =>
    rw [after_append]
    rw [← ih.get?_eq] at ha
    rw [answer_of_assigns ha]
    exact ih.set name v
  | @passed lines h line hr hn ih =>
    rw [after_append]
    rw [← ih.get?_eq] at hn
    rw [(answer_of_not_assigns hn).1]
    exact ih

theorem scale_after (scale : Int) (lines : List (List Char)) :
    ((fresh scale).after lines).scale = scale := by
  induction lines using List.reverseRecOn with
  | nil => rfl
  | append_singleton lines line ih =>
    rw [after_append]
    by_cases ha : ∃ name v, Assigns ((fresh scale).after lines).bindings.get? line name v
    · obtain ⟨name, v, ha⟩ := ha
      rw [answer_of_assigns ha]
      exact ih
    · rw [(answer_of_not_assigns fun name v h => ha ⟨name, v, h⟩).1]
      exact ih

end Calculator

/-! ## the history of lines -/

theorem exists_recorded (lines : List (List Char)) : ∃ h, Recorded lines h := by
  induction lines using List.reverseRecOn with
  | nil => exact ⟨[], .start⟩
  | append_singleton lines line ih =>
    obtain ⟨h, hr⟩ := ih
    by_cases ha : ∃ name v, Assigns (lastValue h) line name v
    · obtain ⟨name, v, ha⟩ := ha
      exact ⟨h ++ [(name, v)], .assigned hr ha⟩
    · exact ⟨h, .passed hr fun name v hv => ha ⟨name, v, hv⟩⟩

theorem Recorded.of_nil {k : List (String × Decimal)} (hk : Recorded [] k) : k = [] := by
  generalize hall : ([] : List (List Char)) = all at hk
  cases hk with
  | start => rfl
  | assigned _ _ => exact absurd hall (by simp)
  | passed _ _ => exact absurd hall (by simp)

theorem Recorded.of_append {lines : List (List Char)} {line : List Char}
    {k : List (String × Decimal)} (hk : Recorded (lines ++ [line]) k) :
    ∃ h, Recorded lines h ∧
      ((∃ name v, Assigns (lastValue h) line name v ∧ k = h ++ [(name, v)]) ∨
        ((∀ name v, ¬Assigns (lastValue h) line name v) ∧ k = h)) := by
  generalize hall : lines ++ [line] = all at hk
  cases hk with
  | start => exact absurd hall (by simp)
  | assigned hr ha =>
    obtain ⟨rfl, hline⟩ := List.append_inj' hall rfl
    obtain rfl := List.singleton_inj.mp hline
    exact ⟨_, hr, Or.inl ⟨_, _, ha, rfl⟩⟩
  | passed hr hn =>
    obtain ⟨rfl, hline⟩ := List.append_inj' hall rfl
    obtain rfl := List.singleton_inj.mp hline
    exact ⟨_, hr, Or.inr ⟨hn, rfl⟩⟩

theorem Recorded.unique {lines : List (List Char)} {h h' : List (String × Decimal)}
    (hr : Recorded lines h) (hr' : Recorded lines h') : h = h' := by
  induction lines using List.reverseRecOn generalizing h h' with
  | nil =>
    rw [hr.of_nil, hr'.of_nil]
  | append_singleton lines line ih =>
    obtain ⟨k, hk, hstep⟩ := hr.of_append
    obtain ⟨k', hk', hstep'⟩ := hr'.of_append
    obtain rfl := ih hk hk'
    rcases hstep with ⟨name, v, ha, rfl⟩ | ⟨hn, rfl⟩
    · rcases hstep' with ⟨name', v', ha', rfl⟩ | ⟨hn', rfl⟩
      · obtain ⟨rfl, rfl⟩ := ha.unique ha'
        rfl
      · exact absurd ha (hn' name v)
    · rcases hstep' with ⟨name', v', ha', rfl⟩ | ⟨_, rfl⟩
      · exact absurd ha' (hn name' v')
      · rfl

/-! ## listings -/

theorem Bindings.get?_of_mem {b : Bindings} {name : String} {v : Decimal}
    (h : (name, v) ∈ b.entries) : b.get? name = some v := by
  obtain ⟨es, hes⟩ := b
  show es.lookup name = some v
  induction es with
  | nil => cases h
  | cons e es ih =>
    obtain ⟨n, w⟩ := e
    rw [List.map_cons, List.nodup_cons] at hes
    rw [lookup_entry]
    rcases List.mem_cons.mp h with he | he
    · cases he
      rw [if_pos rfl]
    · have hne : name ≠ n := by
        rintro rfl
        exact hes.1 (List.mem_map.mpr ⟨(name, v), he, rfl⟩)
      rw [if_neg hne]
      exact ih hes.2 he

/-- one line for each name, with its last value -/
theorem Bindings.Reflects.listing {b : Bindings} {h : List (String × Decimal)}
    (hb : b.Reflects h) :
    List.Forall₂ (fun name text => ∃ v, lastValue h name = some v ∧ text = name ++ " = " ++ v.plain)
      (firstNames h) b.listing := by
  rw [← hb.names_eq, ← hb.get?_eq]
  unfold Bindings.names Bindings.listing
  rw [List.forall₂_map_left_iff, List.forall₂_map_right_iff, List.forall₂_same]
  intro e he
  exact ⟨e.2, Bindings.get?_of_mem he, rfl⟩

/-! ## all lines -/

namespace Calculator

/-- a line binds one name and is answered silently, or it leaves the calculator as it is -/
structure BindsAtMost (c : Calculator) (line : List Char) : Prop where
  unchanged : (c.answer line).2.outcome ≠ .ok .silent ∨ trim line = [] → (c.answer line).1 = c
  bound : (c.answer line).2.outcome = .ok .silent → trim line ≠ [] →
    ∃ name v, Assigns c.bindings.get? line name v ∧
      c.bindings.Binds name v (c.answer line).1.bindings ∧ (c.answer line).1.scale = c.scale
  silent : ∀ name v, Assigns c.bindings.get? line name v →
    (c.answer line).2.outcome = .ok .silent ∧ trim line ≠ []

theorem bindsAtMost (c : Calculator) (line : List Char) : c.BindsAtMost line := by
  by_cases ha : ∃ name v, Assigns c.bindings.get? line name v
  · obtain ⟨name, v, ha⟩ := ha
    have hanswer := answer_of_assigns ha
    have hne : trim line ≠ [] := ha.trim_ne_nil
    refine ⟨?_, ?_, ?_⟩
    · rintro (ho | he)
      · rw [hanswer] at ho
        exact absurd rfl ho
      · exact absurd he hne
    · intro _ _
      refine ⟨name, v, ha, ?_⟩
      rw [hanswer]
      exact ⟨c.bindings.binds_set name v, rfl⟩
    · intro _ _ _
      rw [hanswer]
      exact ⟨rfl, hne⟩
  · have hn : ∀ name v, ¬Assigns c.bindings.get? line name v := fun name v h => ha ⟨name, v, h⟩
    obtain ⟨hsame, hsilent⟩ := answer_of_not_assigns hn
    refine ⟨fun _ => hsame, ?_, ?_⟩
    · intro ho he
      exact absurd (hsilent ho) he
    · intro name v h
      exact absurd h (hn name v)

/-- **The variables behind any lines are the history of their assignments.** -/
theorem bindings_after (scale : Int) (lines : List (List Char)) :
    ∃ h, (∀ h', Recorded lines h' ↔ h' = h) ∧
      ((fresh scale).after lines).bindings.names = firstNames h ∧
      (∀ name, ((fresh scale).after lines).bindings.get? name = lastValue h name) ∧
      (∃ texts, (((fresh scale).after lines).answer "/variables".toList).2.outcome =
          .ok (.lines texts) ∧
        List.Forall₂
          (fun name text => ∃ v, lastValue h name = some v ∧ text = name ++ " = " ++ v.plain)
          (firstNames h) texts) ∧
      ((fresh scale).after lines).scale = scale ∧
      ∀ line, ((fresh scale).after lines).BindsAtMost line := by
  obtain ⟨h, hr⟩ := exists_recorded lines
  have hreflects := reflects_after scale hr
  have hunique : ∀ h', Recorded lines h' ↔ h' = h := by
    intro h'
    constructor
    · intro hr'
      exact hr'.unique hr
    · rintro rfl
      exact hr
  exact ⟨h, hunique, hreflects.names_eq, congrFun hreflects.get?_eq,
    ⟨_, rfl, hreflects.listing⟩, scale_after scale lines, bindsAtMost _⟩

example : ((fresh 20).after ["a = 5".toList, "b = a".toList, "a = 6".toList, "b = c".toList,
    "a + b".toList]).bindings.listing = ["a = 6", "b = 5"] := by decide +kernel

end Calculator

end DecimalCalculator
