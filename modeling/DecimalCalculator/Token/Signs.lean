import DecimalCalculator.Rejection
import DecimalCalculator.Text.Blank

/-!
# Runs of signs

Before an expression is cut into tokens its blanks are dropped, and every run of `+` and `-` is
replaced by the sign of its product: `-` if the run has an odd number of `-`, else `+`. A `*` or
a `/` may not be doubled.

This is done in passes over the text:

* `replacePair a b r`   every `a b` replaced by `r`, from the left and without overlaps;
* `signPass`            the four pairs of signs, one after the other, each replaced by its product;
* `foldSigns`           passes for as long as there is a pair. A pass that finds one makes the text
                        shorter, so they end.

`collapseSigns` is the same by recursion on the text (`foldSigns_eq`): no pass changes the product
of a run, or joins it with another.
-/

namespace DecimalCalculator

def isSign (c : Char) : Bool := c == '+' || c == '-'

/-- two equal signs make a plus, two different ones a minus -/
def signProduct (a b : Char) : Char := if a = b then '+' else '-'

theorem isSign_signProduct (a b : Char) : isSign (signProduct a b) = true := by
  unfold signProduct
  split
  · rfl
  · rfl

theorem signProduct_assoc {a b c : Char} (ha : isSign a = true) (hb : isSign b = true)
    (hc : isSign c = true) :
    signProduct (signProduct a b) c = signProduct a (signProduct b c) := by
  simp only [isSign, Bool.or_eq_true, beq_iff_eq] at ha hb hc
  rcases ha with rfl | rfl <;> rcases hb with rfl | rfl <;> rcases hc with rfl | rfl <;> rfl

/-! ## passes -/

/-- some `a` stands directly in front of a `b` -/
def hasPair (a b : Char) : List Char → Bool
  | c :: d :: rest => (c == a && d == b) || hasPair a b (d :: rest)
  | _ => false

/-- every pair `a b` replaced by `r`, from the left and without overlaps -/
def replacePair (a b r : Char) : List Char → List Char
  | [] => []
  | [c] => [c]
  | c :: d :: rest =>
    if c = a ∧ d = b then r :: replacePair a b r rest else c :: replacePair a b r (d :: rest)

/-- the pairs of signs, in the order in which they are replaced -/
def signPairs : List (Char × Char) := [('+', '+'), ('-', '-'), ('-', '+'), ('+', '-')]

/-- pairs replaced by their products, one pair after the other -/
def replacePairs : List (Char × Char) → List Char → List Char
  | [], cs => cs
  | (a, b) :: ps, cs => replacePairs ps (replacePair a b (signProduct a b) cs)

def signPass (cs : List Char) : List Char := replacePairs signPairs cs

/-- some sign stands next to a sign -/
def hasSignRun (cs : List Char) : Bool := signPairs.any fun p => hasPair p.1 p.2 cs

theorem hasPair_cons_cons (a b c d : Char) (rest : List Char) :
    hasPair a b (c :: d :: rest) = ((c == a && d == b) || hasPair a b (d :: rest)) := rfl

theorem replacePair_match (a b r : Char) (rest : List Char) :
    replacePair a b r (a :: b :: rest) = r :: replacePair a b r rest := if_pos ⟨rfl, rfl⟩
theorem replacePair_of_not_match {a b c d : Char} (h : ¬(c = a ∧ d = b)) (r : Char)
    (rest : List Char) :
    replacePair a b r (c :: d :: rest) = c :: replacePair a b r (d :: rest) := if_neg h

theorem replacePairs_nil (cs : List Char) : replacePairs [] cs = cs := rfl
theorem replacePairs_cons (a b : Char) (ps : List (Char × Char)) (cs : List Char) :
    replacePairs ((a, b) :: ps) cs = replacePairs ps (replacePair a b (signProduct a b) cs) := rfl

/-! ### passes end -/

theorem replacePair_of_not_hasPair {a b : Char} {cs : List Char} (h : hasPair a b cs = false)
    (r : Char) : replacePair a b r cs = cs := by
  induction cs using replacePair.induct a b with
  | case1 => rfl
  | case2 c => rfl
  | case3 c d rest hcd _ =>
    rw [hcd.1, hcd.2, hasPair_cons_cons, beq_self_eq_true, beq_self_eq_true] at h
    cases h
  | case4 c d rest hcd ih =>
    rw [hasPair_cons_cons] at h
    rw [replacePair_of_not_match hcd, ih (Bool.or_eq_false_iff.mp h).2]

theorem length_replacePair_le (a b r : Char) (cs : List Char) :
    (replacePair a b r cs).length ≤ cs.length := by
  induction cs using replacePair.induct a b with
  | case1 => exact Nat.le_refl _
  | case2 c => exact Nat.le_refl _
  | case3 c d rest hcd ih =>
    obtain ⟨rfl, rfl⟩ := hcd
    rw [replacePair_match]
    exact Nat.succ_le_succ (Nat.le_succ_of_le ih)
  | case4 c d rest hcd ih =>
    rw [replacePair_of_not_match hcd]
    exact Nat.succ_le_succ ih

theorem length_replacePair_lt {a b : Char} {cs : List Char} (h : hasPair a b cs = true) (r : Char) :
    (replacePair a b r cs).length < cs.length := by
  induction cs using replacePair.induct a b with
  | case1 => cases h
  | case2 c => cases h
  | case3 c d rest hcd _ =>
    obtain ⟨rfl, rfl⟩ := hcd
    rw [replacePair_match]
    exact Nat.succ_lt_succ (Nat.lt_succ_of_le (length_replacePair_le c d r rest))
  | case4 c d rest hcd ih =>
    rw [hasPair_cons_cons] at h
    rw [replacePair_of_not_match hcd]
    exact Nat.succ_lt_succ (ih ((Bool.or_eq_true_iff.mp h).resolve_left (by simpa using hcd)))

theorem length_replacePairs_le (ps : List (Char × Char)) (cs : List Char) :
    (replacePairs ps cs).length ≤ cs.length := by
  induction ps generalizing cs with
  | nil => exact Nat.le_refl _
  | cons p ps ih => exact Nat.le_trans (ih _) (length_replacePair_le p.1 p.2 _ cs)

/-- the first pair that the text has makes it shorter, and those before that one leave it alone -/
theorem length_replacePairs_lt {ps : List (Char × Char)} {cs : List Char}
    (h : (ps.any fun p => hasPair p.1 p.2 cs) = true) :
    (replacePairs ps cs).length < cs.length := by
  induction ps with
  | nil => cases h
  | cons p ps ih =>
    obtain ⟨a, b⟩ := p
    rw [replacePairs_cons]
    cases hp : hasPair a b cs with
    | true =>
      exact Nat.lt_of_le_of_lt (length_replacePairs_le ps _) (length_replacePair_lt hp _)
    | false =>
      rw [replacePair_of_not_hasPair hp]
      rw [List.any_cons, hp, Bool.false_or] at h
      exact ih h

/-- passes for as long as there is a pair of signs -/
@[semireducible]
def foldSigns (cs : List Char) : List Char :=
  if h : hasSignRun cs = true then
    have : (signPass cs).length < cs.length := length_replacePairs_lt h
    foldSigns (signPass cs)
  else cs
termination_by cs.length

/-! ## the same by recursion -/

/-- `c` in front of a text, multiplied into the sign that the text begins with -/
def joinSign (c : Char) : List Char → List Char
  | [] => [c]
  | d :: rest => if isSign c && isSign d then signProduct c d :: rest else c :: d :: rest

/-- every run of signs replaced by the sign of its product -/
def collapseSigns : List Char → List Char
  | [] => []
  | c :: rest => joinSign c (collapseSigns rest)

theorem collapseSigns_nil : collapseSigns [] = [] := rfl
theorem collapseSigns_cons (c : Char) (rest : List Char) :
    collapseSigns (c :: rest) = joinSign c (collapseSigns rest) := rfl

theorem joinSign_cons_of_isSign {c d : Char} (hc : isSign c = true) (hd : isSign d = true)
    (rest : List Char) : joinSign c (d :: rest) = signProduct c d :: rest :=
  if_pos (by rw [hc, hd]; rfl)

theorem joinSign_cons_of_not_isSign {d : Char} (hd : isSign d = false) (c : Char)
    (rest : List Char) : joinSign c (d :: rest) = c :: d :: rest :=
  if_neg (by rw [hd, Bool.and_false]; exact Bool.false_ne_true)

theorem joinSign_of_not_isSign {c : Char} (h : isSign c = false) (cs : List Char) :
    joinSign c cs = c :: cs := by
  cases cs with
  | nil => rfl
  | cons d rest =>
    show (if (isSign c && isSign d) = true then _ else _) = _
    rw [h, Bool.false_and, if_neg Bool.false_ne_true]

/-- two signs one after the other act as their product -/
theorem joinSign_joinSign {a b : Char} (ha : isSign a = true) (hb : isSign b = true)
    (cs : List Char) : joinSign a (joinSign b cs) = joinSign (signProduct a b) cs := by
  cases cs with
  | nil => exact joinSign_cons_of_isSign ha hb []
  | cons d rest =>
    cases hd : isSign d with
    | true =>
      rw [joinSign_cons_of_isSign hb hd, joinSign_cons_of_isSign ha (isSign_signProduct b d),
        joinSign_cons_of_isSign (isSign_signProduct a b) hd, signProduct_assoc ha hb hd]
    | false =>
      rw [joinSign_cons_of_not_isSign hd, joinSign_cons_of_isSign ha hb,
        joinSign_cons_of_not_isSign hd]

theorem collapseSigns_replacePair {a b : Char} (ha : isSign a = true) (hb : isSign b = true)
    (cs : List Char) :
    collapseSigns (replacePair a b (signProduct a b) cs) = collapseSigns cs := by
  induction cs using replacePair.induct a b with
  | case1 => rfl
  | case2 c => rfl
  | case3 c d rest hcd ih =>
    obtain ⟨rfl, rfl⟩ := hcd
    rw [replacePair_match, collapseSigns_cons, ih, ← joinSign_joinSign ha hb]
    rfl
  | case4 c d rest hcd ih =>
    rw [replacePair_of_not_match hcd, collapseSigns_cons, ih]
    rfl

theorem collapseSigns_replacePairs {ps : List (Char × Char)}
    (h : ∀ p ∈ ps, isSign p.1 = true ∧ isSign p.2 = true) (cs : List Char) :
    collapseSigns (replacePairs ps cs) = collapseSigns cs := by
  induction ps generalizing cs with
  | nil => rfl
  | cons p ps ih =>
    obtain ⟨ha, hb⟩ := h p List.mem_cons_self
    rw [replacePairs_cons, ih fun q hq => h q (List.mem_cons_of_mem p hq),
      collapseSigns_replacePair ha hb]

theorem isSign_signPairs : ∀ p ∈ signPairs, isSign p.1 = true ∧ isSign p.2 = true := by decide

/-- the four pairs are all pairs of signs -/
theorem hasSignRun_cons_cons (c d : Char) (rest : List Char) :
    hasSignRun (c :: d :: rest) = (isSign c && isSign d || hasSignRun (d :: rest)) := by
  simp only [hasSignRun, signPairs, List.any_cons, List.any_nil, hasPair_cons_cons, isSign,
    Bool.and_or_distrib_left, Bool.and_or_distrib_right, Bool.or_false]
  ac_rfl

/-- a text without a pair of signs is left as it is -/
theorem collapseSigns_of_not_hasSignRun {cs : List Char} (h : hasSignRun cs = false) :
    collapseSigns cs = cs := by
  induction cs with
  | nil => rfl
  | cons c cs ih =>
    cases cs with
    | nil => rfl
    | cons d rest =>
      rw [hasSignRun_cons_cons] at h
      obtain ⟨hcd, hrest⟩ := Bool.or_eq_false_iff.mp h
      rw [collapseSigns_cons, ih hrest]
      exact if_neg (by rw [hcd]; exact Bool.false_ne_true)

/-- passes end with every run of signs replaced by the sign of its product -/
theorem foldSigns_eq (cs : List Char) : foldSigns cs = collapseSigns cs := by
  induction cs using foldSigns.induct with
  | case1 cs h _ ih =>
    rw [foldSigns, dif_pos h, ih]
    exact collapseSigns_replacePairs isSign_signPairs cs
  | case2 cs h =>
    rw [foldSigns, dif_neg h, collapseSigns_of_not_hasSignRun (eq_false_of_ne_true h)]

/-! ## doubled operators -/

def isDoubled (a b : Char) : Bool := a == b && (a == '*' || a == '/')

/-- some `*` or `/` stands next to itself -/
def hasDoubled : List Char → Bool
  | a :: b :: rest => isDoubled a b || hasDoubled (b :: rest)
  | _ => false

theorem hasDoubled_cons_cons (a b : Char) (rest : List Char) :
    hasDoubled (a :: b :: rest) = (isDoubled a b || hasDoubled (b :: rest)) := rfl

/-! ## normal form -/

/-- without blanks, doubled operators and runs of signs -/
def normalize (text : List Char) : Except Rejection (List Char) :=
  let dense := dropBlanks text
  if hasDoubled dense then .error (.invalidExpression .doubledOperator)
  else .ok (foldSigns dense)

theorem normalize_of_hasDoubled {text : List Char} (h : hasDoubled (dropBlanks text) = true) :
    normalize text = .error (.invalidExpression .doubledOperator) := if_pos h

theorem normalize_of_not_hasDoubled {text : List Char} (h : hasDoubled (dropBlanks text) = false) :
    normalize text = .ok (collapseSigns (dropBlanks text)) := by
  rw [← foldSigns_eq]
  exact if_neg (by rw [h]; exact Bool.false_ne_true)

end DecimalCalculator
