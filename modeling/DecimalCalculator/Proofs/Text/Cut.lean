import Mathlib

/-!
# Cutting at separators

A list with a separator in it is the part in front of the first one, the separator, and what is
behind it. The part in front is taken by `takeWhile (· != sep)`, the rest by `dropWhile (· != sep)`.
An element that is kept also keeps what is behind it from being dropped at the front
(`dropWhile_append_cons`), and what is in front of it from being dropped at the end
(`rdropWhile_append_cons`).

A list is cut behind each of its separators in one way (`CutBehind.unique`), and the part in the
middle may be replaced without a change to the others (`CutBehind.replace`).
-/

namespace DecimalCalculator

section
variable {α : Type} {p : α → Bool} {a : α}

theorem dropWhile_append_cons (ha : p a = false) (l r : List α) :
    (l ++ a :: r).dropWhile p = l.dropWhile p ++ a :: r := by
  induction l with
  | nil =>
    rw [List.nil_append, List.dropWhile_cons, ha]
    rfl
  | cons b l ih =>
    rw [List.cons_append, List.dropWhile_cons, List.dropWhile_cons, ih]
    split
    · rfl
    · rfl

theorem rdropWhile_append_cons (ha : p a = false) (l r : List α) :
    (l ++ a :: r).rdropWhile p = l ++ a :: r.rdropWhile p := by
  have hrev : (l ++ a :: r).reverse = r.reverse ++ a :: l.reverse := by simp
  unfold List.rdropWhile
  rw [hrev, dropWhile_append_cons ha]
  simp

end

section
variable {α : Type} [DecidableEq α] {sep : α} {l : List α}

theorem forall_ne_sep (h : sep ∉ l) : ∀ a ∈ l, (a != sep) = true :=
  fun _ ha => bne_iff_ne.mpr fun e => h (e ▸ ha)

theorem takeWhile_ne_append (h : sep ∉ l) (r : List α) :
    (l ++ sep :: r).takeWhile (· != sep) = l := by
  rw [List.takeWhile_append_of_pos (forall_ne_sep h), List.takeWhile_cons_of_neg (by simp),
    List.append_nil]

theorem takeWhile_ne_of_not_mem (h : sep ∉ l) : l.takeWhile (· != sep) = l :=
  List.takeWhile_eq_self_iff.mpr (forall_ne_sep h)

theorem dropWhile_ne_of_not_mem (h : sep ∉ l) : l.dropWhile (· != sep) = [] :=
  List.dropWhile_eq_nil_iff.mpr (forall_ne_sep h)

theorem dropWhile_ne_append (h : sep ∉ l) (r : List α) :
    (l ++ sep :: r).dropWhile (· != sep) = sep :: r := by
  have hsep : (sep != sep) = false := bne_self_eq_false sep
  rw [dropWhile_append_cons (p := (· != sep)) hsep, dropWhile_ne_of_not_mem h, List.nil_append]

theorem rdropWhile_ne_append (l r : List α) :
    (l ++ sep :: r).rdropWhile (· != sep) = l ++ sep :: r.rdropWhile (· != sep) := by
  have hsep : (sep != sep) = false := bne_self_eq_false sep
  exact rdropWhile_append_cons (p := (· != sep)) hsep l r

theorem rdropWhile_ne_of_not_mem (h : sep ∉ l) : l.rdropWhile (· != sep) = [] :=
  List.rdropWhile_eq_nil_iff.mpr (forall_ne_sep h)

end

/-! ## all separators -/

/-- a list cut behind each of its separators; what is left behind the last one is a part of its
own, unless nothing is left -/
inductive CutBehind {α : Type} (sep : α) : List α → List (List α) → Prop
  | nil : CutBehind sep [] []
  | last {l : List α} (hne : l ≠ []) (h : sep ∉ l) : CutBehind sep l [l]
  | cons {l rest : List α} {ls : List (List α)} (h : sep ∉ l) (hrest : CutBehind sep rest ls) :
    CutBehind sep (l ++ sep :: rest) ((l ++ [sep]) :: ls)

section
variable {α : Type} {sep : α} {l l' rest rest' : List α}

/-- what is in front of the first separator and what is behind it -/
theorem append_sep_inj (h : sep ∉ l) (h' : sep ∉ l') (he : l ++ sep :: rest = l' ++ sep :: rest') :
    l = l' ∧ rest = rest' := by
  classical
  have hl : l = l' := by rw [← takeWhile_ne_append h rest, he, takeWhile_ne_append h' rest']
  subst hl
  exact ⟨rfl, (List.cons.inj (List.append_cancel_left he)).2⟩

namespace CutBehind

variable {ls ls' : List (List α)}

theorem flatten (h : CutBehind sep l ls) : ls.flatten = l := by
  induction h with
  | nil => rfl
  | last => exact List.append_nil _
  | cons _ _ ih => rw [List.flatten_cons, ih, List.append_assoc, List.singleton_append]

/-- **A list is cut in one way.** -/
theorem unique (h : CutBehind sep l ls) (h' : CutBehind sep l ls') : ls = ls' := by
  induction h generalizing ls' with
  | nil =>
    generalize he : ([] : List α) = l at h'
    cases h' with
    | nil => rfl
    | last hne => exact absurd he.symm hne
    | cons => exact absurd he (by simp)
  | @last l hne hl =>
    cases h' with
    | nil => exact absurd rfl hne
    | last => rfl
    | cons => exact absurd (List.mem_append_right _ List.mem_cons_self) hl
  | @cons l rest ls hl _ ih =>
    generalize he : l ++ sep :: rest = m at h'
    cases h' with
    | nil => exact absurd he (by simp)
    | last _ hm => exact absurd (he ▸ List.mem_append_right _ List.mem_cons_self) hm
    | cons hl' hrest =>
      obtain ⟨rfl, rfl⟩ := append_sep_inj hl hl' he
      rw [ih hrest]

/-- a part that is replaced leaves the other parts as they are -/
theorem replace {front back : List (List α)} {part : List α}
    (h : CutBehind sep l (front ++ part :: back)) (hl' : sep ∉ l') :
    CutBehind sep (front.flatten ++ (l' ++ sep :: back.flatten))
      (front ++ (l' ++ [sep]) :: back) := by
  induction front generalizing l with
  | nil =>
    refine .cons hl' ?_
    cases h with
    | last => exact .nil
    | cons _ hrest => rwa [hrest.flatten]
  | cons first front ih =>
    generalize he : first :: front ++ part :: back = ls at h
    cases h with
    | nil => exact absurd he (by simp)
    | last => exact absurd he (by simp)
    | cons hl hrest =>
      rw [List.cons_append, List.cons.injEq] at he
      obtain ⟨rfl, rfl⟩ := he
      simpa using cons hl (ih hrest)

end CutBehind

end

end DecimalCalculator
