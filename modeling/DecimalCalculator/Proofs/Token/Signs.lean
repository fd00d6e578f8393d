import Mathlib
import DecimalCalculator.Token.Signs
import DecimalCalculator.Proofs.Token.Origin

/-!
# What the normal form of a text is

`Collapses cs out` says it without passes and without products: `out` is `cs` with each maximal run
of signs replaced by one sign, and everything else as it was. There is one such text
(`collapses_iff`), no sign in it stands next to a sign (`noSignRun_collapseSigns`), and what stood
next to each other without a sign between still does (`hasDoubled_collapseSigns`).
-/

namespace DecimalCalculator

/-! ## runs -/

/-- the sign of a run: a minus if it has an odd number of them -/
def runSign (signs : List Char) : Char := if Odd (signs.count '-') then '-' else '+'

inductive Collapses : List Char → List Char → Prop
  | nil : Collapses [] []
  | other {c : Char} {cs out : List Char} :
      isSign c = false → Collapses cs out → Collapses (c :: cs) (c :: out)
  | run {signs cs out : List Char} :
      signs ≠ [] → (∀ s ∈ signs, isSign s = true) → (∀ c ∈ cs.head?, isSign c = false) →
      Collapses cs out → Collapses (signs ++ cs) (runSign signs :: out)

theorem runSign_singleton {s : Char} (h : isSign s = true) : runSign [s] = s := by
  rcases isSign_iff.mp h with rfl | rfl
  · rfl
  · rfl

theorem isSign_runSign (signs : List Char) : isSign (runSign signs) = true := by
  unfold runSign
  split
  · rfl
  · rfl

theorem runSign_cons {s : Char} (h : isSign s = true) (signs : List Char) :
    runSign (s :: signs) = signProduct s (runSign signs) := by
  unfold runSign
  rcases isSign_iff.mp h with rfl | rfl
  · rw [List.count_cons_of_ne (by decide)]
    split
    · rfl
    · rfl
  · have hflip : Odd (signs.count '-' + 1) ↔ ¬Odd (signs.count '-') := Nat.odd_add_one
    rw [List.count_cons_self]
    by_cases hodd : Odd (signs.count '-')
    · rw [if_neg fun h => hflip.mp h hodd, if_pos hodd]
      rfl
    · rw [if_pos (hflip.mpr hodd), if_neg hodd]
      rfl

/-- one more character in front -/
theorem Collapses.cons {cs out : List Char} (h : Collapses cs out) (c : Char) :
    Collapses (c :: cs) (joinSign c out) := by
  cases hc : isSign c with
  | false =>
    rw [joinSign_of_not_isSign hc]
    exact .other hc h
  | true =>
    have hsingle : ∀ s ∈ [c], isSign s = true := fun s hs => by rwa [List.mem_singleton.mp hs]
    cases h with
    | nil =>
      have hrun : Collapses ([c] ++ []) [runSign [c]] := .run (by simp) hsingle (by simp) .nil
      rwa [runSign_singleton hc] at hrun
    | @other d cs out hd h =>
      have hrun : Collapses ([c] ++ d :: cs) (runSign [c] :: d :: out) :=
        .run (by simp) hsingle (by simpa using hd) (.other hd h)
      rwa [runSign_singleton hc, ← joinSign_cons_of_not_isSign hd] at hrun
    | @run signs cs out _ hsigns hend h =>
      rw [joinSign_cons_of_isSign hc (isSign_runSign signs), ← runSign_cons hc]
      exact .run (by simp) (List.forall_mem_cons.mpr ⟨hc, hsigns⟩) hend h

/-- what the text begins with stays, or it is a sign and becomes one -/
theorem exists_cons_of_collapseSigns (d : Char) (cs : List Char) :
    ∃ e out, collapseSigns (d :: cs) = e :: out ∧
      (e = d ∨ isSign e = true ∧ isSign d = true) := by
  rw [collapseSigns_cons]
  cases hout : collapseSigns cs with
  | nil => exact ⟨d, [], rfl, Or.inl rfl⟩
  | cons e out =>
    cases hd : isSign d with
    | false => exact ⟨d, e :: out, joinSign_of_not_isSign hd _, Or.inl rfl⟩
    | true =>
      cases he : isSign e with
      | false => exact ⟨d, e :: out, joinSign_cons_of_not_isSign he d out, Or.inl rfl⟩
      | true =>
        exact ⟨_, out, joinSign_cons_of_isSign hd he out, Or.inr ⟨isSign_signProduct d e, rfl⟩⟩

theorem collapseSigns_run {signs cs : List Char} (hne : signs ≠ [])
    (hsigns : ∀ s ∈ signs, isSign s = true) (hend : ∀ c ∈ cs.head?, isSign c = false) :
    collapseSigns (signs ++ cs) = runSign signs :: collapseSigns cs := by
  induction signs with
  | nil => exact absurd rfl hne
  | cons s signs ih =>
    obtain ⟨hs, hsigns⟩ := List.forall_mem_cons.mp hsigns
    rw [List.cons_append, collapseSigns_cons]
    cases signs with
    | nil =>
      rw [List.nil_append, runSign_singleton hs]
      cases cs with
      | nil => rfl
      | cons c cs =>
        rw [collapseSigns_cons, joinSign_of_not_isSign (hend c rfl),
          joinSign_cons_of_not_isSign (hend c rfl)]
    | cons t signs =>
      rw [ih (List.cons_ne_nil t signs) hsigns, joinSign_cons_of_isSign hs (isSign_runSign _),
        ← runSign_cons hs]

theorem collapses_iff {cs out : List Char} : Collapses cs out ↔ out = collapseSigns cs := by
  constructor
  · intro h
    induction h with
    | nil => rfl
    | other hc _ ih => rw [collapseSigns_cons, joinSign_of_not_isSign hc, ← ih]
    | run hne hsigns hend _ ih => rw [collapseSigns_run hne hsigns hend, ← ih]
  · rintro rfl
    induction cs with
    | nil => exact .nil
    | cons c cs ih => exact ih.cons c

/-! ## neighbours -/

/-- no sign stands next to a sign -/
def NoSignRun (cs : List Char) : Prop :=
  cs.IsChain fun a b => ¬(isSign a = true ∧ isSign b = true)

theorem noSignRun_joinSign {cs : List Char} (h : NoSignRun cs) (c : Char) :
    NoSignRun (joinSign c cs) := by
  cases cs with
  | nil => exact .singleton c
  | cons d rest =>
    by_cases hcd : isSign c = true ∧ isSign d = true
    · rw [joinSign_cons_of_isSign hcd.1 hcd.2]
      refine List.isChain_cons.mpr ⟨fun e he hse => ?_, h.tail⟩
      exact (List.isChain_cons.mp h).1 e he ⟨hcd.2, hse.2⟩
    · have hjoin : joinSign c (d :: rest) = c :: d :: rest := if_neg (by simpa using hcd)
      rw [hjoin]
      exact List.isChain_cons_cons.mpr ⟨hcd, h⟩

theorem noSignRun_collapseSigns (cs : List Char) : NoSignRun (collapseSigns cs) := by
  induction cs with
  | nil => exact .nil
  | cons c cs ih => exact noSignRun_joinSign ih c

/-- no pass finds a pair of signs in such a text -/
theorem noSignRun_iff {cs : List Char} : NoSignRun cs ↔ hasSignRun cs = false := by
  unfold NoSignRun
  induction cs with
  | nil => exact iff_of_true .nil rfl
  | cons c cs ih =>
    cases cs with
    | nil => exact iff_of_true (.singleton c) rfl
    | cons d rest =>
      rw [hasSignRun_cons_cons, Bool.or_eq_false_iff, List.isChain_cons_cons, ih,
        ← Bool.not_eq_true (_ && _), Bool.and_eq_true]

theorem collapseSigns_of_noSignRun {cs : List Char} (h : NoSignRun cs) : collapseSigns cs = cs :=
  collapseSigns_of_not_hasSignRun (noSignRun_iff.mp h)

theorem hasDoubled_eq_false_iff {cs : List Char} :
    hasDoubled cs = false ↔ cs.IsChain fun a b => isDoubled a b = false := by
  induction cs with
  | nil => exact iff_of_true rfl .nil
  | cons a cs ih =>
    cases cs with
    | nil => exact iff_of_true rfl (.singleton a)
    | cons b rest => rw [hasDoubled_cons_cons, Bool.or_eq_false_iff, List.isChain_cons_cons, ih]

theorem hasPair_iff {a b : Char} {cs : List Char} : hasPair a b cs = true ↔ [a, b] <:+: cs := by
  induction cs with
  | nil => exact iff_of_false nofun (by simp)
  | cons c cs ih =>
    cases cs with
    | nil => exact iff_of_false nofun (by simp [List.infix_cons_iff])
    | cons d rest =>
      have hfront : (c == a && d == b) = true ↔ [a, b] <+: c :: d :: rest := by
        rw [Bool.and_eq_true, beq_iff_eq, beq_iff_eq, List.cons_prefix_cons, List.cons_prefix_cons,
          eq_comm, eq_comm (a := d), and_iff_left List.nil_prefix]
      rw [hasPair_cons_cons, Bool.or_eq_true, ih, hfront]
      exact List.infix_cons_iff.symm

theorem isDoubled_iff {a b : Char} :
    isDoubled a b = true ↔ (a == '*' && b == '*') = true ∨ (a == '/' && b == '/') = true := by
  simp only [isDoubled, Bool.and_eq_true, Bool.or_eq_true, beq_iff_eq]
  constructor
  · rintro ⟨rfl, rfl | rfl⟩
    · exact Or.inl ⟨rfl, rfl⟩
    · exact Or.inr ⟨rfl, rfl⟩
  · rintro (⟨rfl, rfl⟩ | ⟨rfl, rfl⟩)
    · exact ⟨rfl, Or.inl rfl⟩
    · exact ⟨rfl, Or.inr rfl⟩

theorem hasDoubled_iff {cs : List Char} :
    hasDoubled cs = true ↔ ['*', '*'] <:+: cs ∨ ['/', '/'] <:+: cs := by
  rw [← hasPair_iff, ← hasPair_iff]
  induction cs with
  | nil => exact iff_of_false nofun (by simp [hasPair])
  | cons a cs ih =>
    cases cs with
    | nil => exact iff_of_false nofun (by simp [hasPair])
    | cons b rest =>
      rw [hasDoubled_cons_cons, hasPair_cons_cons, hasPair_cons_cons, Bool.or_eq_true,
        Bool.or_eq_true, Bool.or_eq_true, ih, isDoubled_iff, or_or_or_comm]

theorem isDoubled_comm (a b : Char) : isDoubled a b = isDoubled b a := by
  unfold isDoubled
  by_cases h : a = b
  · rw [h]
  · rw [beq_eq_false_iff_ne.mpr h, beq_eq_false_iff_ne.mpr (Ne.symm h), Bool.false_and,
      Bool.false_and]

theorem hasDoubled_cons_of_isSign {s : Char} (h : isSign s = true) (cs : List Char) :
    hasDoubled (s :: cs) = hasDoubled cs := by
  cases cs with
  | nil => rfl
  | cons d rest => rw [hasDoubled_cons_cons, isDoubled_of_isSign h, Bool.false_or]

/-- replacing runs brings no two characters together -/
theorem hasDoubled_collapseSigns (cs : List Char) :
    hasDoubled (collapseSigns cs) = hasDoubled cs := by
  induction cs with
  | nil => rfl
  | cons c cs ih =>
    cases hc : isSign c with
    | true =>
      rw [hasDoubled_cons_of_isSign hc, ← ih, collapseSigns_cons]
      cases collapseSigns cs with
      | nil => rfl
      | cons e out =>
        cases he : isSign e with
        | true =>
          rw [joinSign_cons_of_isSign hc he, hasDoubled_cons_of_isSign he,
            hasDoubled_cons_of_isSign (isSign_signProduct c e)]
        | false => rw [joinSign_cons_of_not_isSign he, hasDoubled_cons_of_isSign hc]
    | false =>
      rw [collapseSigns_cons, joinSign_of_not_isSign hc]
      cases cs with
      | nil => rfl
      | cons d rest =>
        obtain ⟨e, out, hout, he⟩ := exists_cons_of_collapseSigns d rest
        have hce : isDoubled c e = isDoubled c d := by
          rcases he with rfl | ⟨he, hd⟩
          · rfl
          · rw [isDoubled_comm, isDoubled_of_isSign he, isDoubled_comm, isDoubled_of_isSign hd]
        rw [hout] at ih ⊢
        rw [hasDoubled_cons_cons, hasDoubled_cons_cons, ih, hce]

/-- what stands next to each other in a normal form -/
def Neighbours (a b : Char) : Prop :=
  ¬(isSign a = true ∧ isSign b = true) ∧ isDoubled a b = false

theorem isChain_neighbours_iff {cs : List Char} :
    cs.IsChain Neighbours ↔ NoSignRun cs ∧ hasDoubled cs = false := by
  rw [hasDoubled_eq_false_iff]
  induction cs with
  | nil => exact iff_of_true .nil ⟨.nil, .nil⟩
  | cons a cs ih =>
    unfold NoSignRun at ih ⊢
    rw [List.isChain_cons, List.isChain_cons, List.isChain_cons, ih, and_and_and_comm,
      ← forall₂_and]
    rfl

/-! ## normal forms -/

theorem dropBlanks_collapseSigns {cs : List Char} (h : ∀ c ∈ cs, isBlank c = false) :
    dropBlanks (collapseSigns cs) = collapseSigns cs := by
  refine dropBlanks_of_forall fun c hc => ?_
  rcases mem_collapseSigns hc with hc | hs
  · exact h c hc
  · exact isBlank_of_isSign hs

theorem normalize_eq_ok_iff {text out : List Char} :
    normalize text = .ok out ↔
      hasDoubled (dropBlanks text) = false ∧ out = collapseSigns (dropBlanks text) := by
  cases hd : hasDoubled (dropBlanks text) with
  | true =>
    rw [normalize_of_hasDoubled hd]
    exact iff_of_false nofun fun h => by cases h.1
  | false =>
    rw [normalize_of_not_hasDoubled hd]
    exact ⟨fun h => ⟨rfl, (Except.ok.inj h).symm⟩, fun h => congrArg Except.ok h.2.symm⟩

theorem normalize_eq_error_iff {text : List Char} {e : Rejection} :
    normalize text = .error e ↔
      e = .invalidExpression .doubledOperator ∧ hasDoubled (dropBlanks text) = true := by
  cases hd : hasDoubled (dropBlanks text) with
  | true =>
    rw [normalize_of_hasDoubled hd]
    exact ⟨fun h => ⟨(Except.error.inj h).symm, rfl⟩, fun h => congrArg Except.error h.1.symm⟩
  | false =>
    rw [normalize_of_not_hasDoubled hd]
    exact iff_of_false nofun fun h => by cases h.2

/-- a normal form is its own -/
theorem normalize_of_normalize {text out : List Char} (h : normalize text = .ok out) :
    normalize out = .ok out := by
  obtain ⟨hd, rfl⟩ := normalize_eq_ok_iff.mp h
  rw [normalize_eq_ok_iff, dropBlanks_collapseSigns fun _ hc => (mem_dropBlanks_iff.mp hc).2,
    hasDoubled_collapseSigns, collapseSigns_of_noSignRun (noSignRun_collapseSigns _)]
  exact ⟨hd, rfl⟩

/-- A text has no normal form exactly if it has `**` or `//` when its blanks are left out. Otherwise
that is the text without its blanks and with every maximal run of signs replaced by its sign: a text
in which no sign stands next to a sign, and which is its own normal form. Blanks make no difference,
wherever they are. -/
theorem normalize_eq_collapsed :
    (∀ text e, normalize text = .error e ↔ e = .invalidExpression .doubledOperator ∧
      (['*', '*'] <:+: dropBlanks text ∨ ['/', '/'] <:+: dropBlanks text)) ∧
    (∀ text out, normalize text = .ok out ↔
      ¬(['*', '*'] <:+: dropBlanks text ∨ ['/', '/'] <:+: dropBlanks text) ∧
        Collapses (dropBlanks text) out) ∧
    (∀ text out, normalize text = .ok out → NoSignRun out ∧ normalize out = .ok out) ∧
    ∀ front blanks back, (∀ c ∈ blanks, isBlank c = true) →
      normalize (front ++ blanks ++ back) = normalize (front ++ back) := by
  refine ⟨fun text e => ?_, fun text out => ?_, fun text out h => ⟨?_, normalize_of_normalize h⟩,
    fun front blanks back hblanks => ?_⟩
  · rw [normalize_eq_error_iff, hasDoubled_iff]
  · rw [normalize_eq_ok_iff, collapses_iff, ← hasDoubled_iff, Bool.not_eq_true]
  · rw [(normalize_eq_ok_iff.mp h).2]
    exact noSignRun_collapseSigns _
  · have hdense : dropBlanks (front ++ blanks ++ back) = dropBlanks (front ++ back) := by
      rw [dropBlanks_append, dropBlanks_append, dropBlanks_append, dropBlanks_eq_nil hblanks,
        List.append_nil]
    unfold normalize
    rw [hdense]

end DecimalCalculator
