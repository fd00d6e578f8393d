import Mathlib
import DecimalCalculator.Proofs.Decimal.Plain
import DecimalCalculator.Proofs.Exactness

/-!
# The natural scale of sums, differences and products

On paper a sum or a difference has the places of the operand that has more, and a product has the
places of both factors. That is the natural scale of a tree (`Expr.naturalScale`). No result has
more places, but it may have fewer, for two operators have a short way:

* a zero operand gives a sum at most 15 places more than the other operand has;
* a factor that is one leaves the other in its shortest form, and adds no places.

`Operator.Keeps` says when this makes no difference, and `Expr.natural_scales` that nothing else
does. The order of operands makes none in a product, and in a sum only between two zeros
(`Operator.Swappable`).
-/

namespace DecimalCalculator

/-! ## two decimals -/

namespace Decimal

/-- the shortest form of `d` has all places of `d` and of a factor `unit` -/
def KeptBesideOne (unit d : Decimal) : Prop :=
  (d.digits = 0 → unit.scale + d.scale = 0) ∧
    (d.digits ≠ 0 → unit.scale = 0 ∧ ¬ 10 ∣ d.digits)

theorem keptBesideOne_iff {unit : Decimal} (h : unit.isOne = true) (d : Decimal) :
    d.normalized.scale = unit.scale + d.scale ↔ KeptBesideOne unit d := by
  have hunit : 0 ≤ unit.scale := (of_decide_eq_true h).1
  by_cases h0 : d.digits = 0
  · rw [normalized_of_zero h0]
    exact ⟨fun hs => ⟨fun _ => hs.symm, absurd h0⟩, fun hk => (hk.1 h0).symm⟩
  · constructor
    · intro hs
      -- no place is gained by shortening, so the factor has none to give
      have hle := normalized_scale_le h0
      have hzero : unit.scale = 0 := by omega
      rw [hzero, zero_add, normalized_scale_eq_iff h0] at hs
      exact ⟨fun hd => absurd hd h0, fun _ => ⟨hzero, hs⟩⟩
    · intro hk
      obtain ⟨hzero, hd⟩ := hk.2 h0
      rw [hzero, zero_add]
      exact (normalized_scale_eq_iff h0).mpr hd

theorem add_scale_eq_iff (l r : Decimal) :
    (l + r).scale = max l.scale r.scale ↔
      (r.digits = 0 → r.scale ≤ l.scale + zeroWidening) ∧
        (l.digits = 0 → r.digits ≠ 0 → l.scale ≤ r.scale + zeroWidening) := by
  by_cases hr : r.digits = 0
  · rw [add_of_zero_right hr, extend_scale]
    constructor
    · intro hs
      exact ⟨fun _ => by omega, fun _ hn => absurd hr hn⟩
    · intro hk
      have := hk.1 hr
      omega
  · by_cases hl : l.digits = 0
    · rw [add_of_zero_left hl hr, extend_scale]
      constructor
      · intro hs
        exact ⟨fun h0 => absurd h0 hr, fun _ _ => by omega⟩
      · intro hk
        have := hk.2 hl hr
        omega
    · rw [add_of_ne_zero hl hr]
      exact iff_of_true rfl ⟨fun h0 => absurd h0 hr, fun h0 => absurd h0 hl⟩

example : zero + ⟨0, 20⟩ = ⟨0, 15⟩ := by decide

theorem mul_scale_le {l r : Decimal} {m n : ℤ} (hm : 0 ≤ m) (hn : 0 ≤ n) (hl : l.scale ≤ m)
    (hr : r.scale ≤ n) : (l * r).scale ≤ m + n := by
  cases hlo : l.isOne with
  | true =>
    rw [mul_of_isOne_left hlo]
    exact normalized_scale_le_of_nonneg (add_nonneg hm hn) (by omega)
  | false =>
    cases hro : r.isOne with
    | true =>
      rw [mul_of_isOne_right hlo hro]
      exact normalized_scale_le_of_nonneg (add_nonneg hm hn) (by omega)
    | false =>
      rw [mul_of_not_isOne hlo hro]
      exact add_le_add hl hr

theorem mul_scale_eq_iff (l r : Decimal) :
    (l * r).scale = l.scale + r.scale ↔
      (l.isOne = true → KeptBesideOne l r) ∧
        (r.isOne = true → l.isOne = false → KeptBesideOne r l) := by
  cases hl : l.isOne with
  | true =>
    rw [mul_of_isOne_left hl, keptBesideOne_iff hl]
    exact ⟨fun h => ⟨fun _ => h, fun _ => nofun⟩, fun h => h.1 rfl⟩
  | false =>
    cases hr : r.isOne with
    | true =>
      rw [mul_of_isOne_right hl hr, add_comm, keptBesideOne_iff hr]
      exact ⟨fun h => ⟨nofun, fun _ _ => h⟩, fun h => h.2 rfl rfl⟩
    | false =>
      rw [mul_of_not_isOne hl hr]
      exact iff_of_true rfl ⟨nofun, nofun⟩

protected theorem mul_comm (l r : Decimal) : l * r = r * l := by
  cases hl : l.isOne with
  | true =>
    cases hr : r.isOne with
    | true =>
      rw [mul_of_isOne_left hl, mul_of_isOne_left hr]
      exact normalized_eq_of_toRat_eq ((toRat_of_isOne hr).trans (toRat_of_isOne hl).symm)
    | false => rw [mul_of_isOne_left hl, mul_of_isOne_right hr hl]
  | false =>
    cases hr : r.isOne with
    | true => rw [mul_of_isOne_right hl hr, mul_of_isOne_left hr]
    | false =>
      rw [mul_of_not_isOne hl hr, mul_of_not_isOne hr hl, Int.mul_comm, Int.add_comm l.scale]

theorem add_comm_of_ne_zero {l r : Decimal} (h : ¬(l.digits = 0 ∧ r.digits = 0)) :
    r + l = l + r := by
  by_cases hl : l.digits = 0
  · have hr : r.digits ≠ 0 := fun hr => h ⟨hl, hr⟩
    rw [add_of_zero_left hl hr, add_of_zero_right hl]
  · by_cases hr : r.digits = 0
    · rw [add_of_zero_right hr, add_of_zero_left hr hl]
    · rw [add_of_ne_zero hl hr, add_of_ne_zero hr hl, Int.max_comm, Int.add_comm]

theorem add_of_zeros {l r : Decimal} (hl : l.digits = 0) (hr : r.digits = 0) :
    l + r = ⟨0, l.scale + min (r.scale - l.scale).toNat zeroWidening⟩ := by
  rw [add_of_zero_right hr, extend, if_pos hl, Nat.cast_min]

/-- only zeros have two sums, if one is to be widened too far -/
theorem add_comm_iff (l r : Decimal) :
    r + l = l + r ↔
      (l.digits = 0 → r.digits = 0 → (l.scale - r.scale).natAbs ≤ zeroWidening) := by
  have hlimit : zeroWidening = 15 := rfl
  by_cases h : l.digits = 0 ∧ r.digits = 0
  · obtain ⟨hl, hr⟩ := h
    rw [add_of_zeros hl hr, add_of_zeros hr hl]
    constructor
    · intro h _ _
      have hscale := congrArg scale h
      dsimp only at hscale
      omega
    · intro h
      have := h hl hr
      congr 1
      omega
  · exact iff_of_true (add_comm_of_ne_zero h) fun hl hr => absurd ⟨hl, hr⟩ h

theorem plain_add_comm_iff (l r : Decimal) :
    (r + l).plain = (l + r).plain ↔ r + l = l + r := by
  refine ⟨fun h => ?_, fun h => by rw [h]⟩
  by_cases h0 : l.digits = 0 ∧ r.digits = 0
  · obtain ⟨hl, hr⟩ := h0
    rw [add_of_zeros hl hr, add_of_zeros hr hl] at h ⊢
    rw [plain_zero_inj h]
  · exact add_comm_of_ne_zero h0

end Decimal

/-! ## one operator -/

namespace Operator

/-- the places of a result, for operands with `m` and `n` places -/
def naturalScale (op : Operator) (m n : ℤ) : ℤ := if op = .mul then m + n else max m n

/-- the value of `l op r` has all places of its operands -/
def Keeps (op : Operator) (l r : Decimal) : Prop :=
  match op with
  | .add => (r.digits = 0 → r.scale ≤ l.scale + Decimal.zeroWidening) ∧
      (l.digits = 0 → r.digits ≠ 0 → l.scale ≤ r.scale + Decimal.zeroWidening)
  | .mul => (l.isOne = true → Decimal.KeptBesideOne l r) ∧
      (r.isOne = true → l.isOne = false → Decimal.KeptBesideOne r l)
  | .sub | .div | .pow => True

/-- the operands are no zeros of a sum that are too far apart to be swapped -/
def Swappable (op : Operator) (l r : Decimal) : Prop :=
  op = .add → l.digits = 0 → r.digits = 0 → (l.scale - r.scale).natAbs ≤ Decimal.zeroWidening

variable {scale : ℤ} {op : Operator} {l r v : Decimal}

theorem scale_eq_naturalScale_iff (hop : op.isRing = true) (h : op.apply scale l r = .ok v) :
    v.scale = op.naturalScale l.scale r.scale ↔ op.Keeps l r := by
  cases op with
  | add =>
    cases h
    exact Decimal.add_scale_eq_iff l r
  | sub =>
    cases h
    exact iff_of_true (Decimal.sub_scale l r) trivial
  | mul =>
    cases h
    exact Decimal.mul_scale_eq_iff l r
  | div => cases hop
  | pow => cases hop

/-- never more places than those of the operands, even if these have lost some before -/
theorem scale_le_naturalScale {m n : ℤ} (hop : op.isRing = true) (hm : 0 ≤ m) (hn : 0 ≤ n)
    (hl : l.scale ≤ m) (hr : r.scale ≤ n) (h : op.apply scale l r = .ok v) :
    v.scale ≤ op.naturalScale m n := by
  cases op with
  | add =>
    cases h
    exact (Decimal.add_scale_between l r).2.trans (max_le_max hl hr)
  | sub =>
    cases h
    rw [Decimal.sub_scale]
    exact max_le_max hl hr
  | mul =>
    cases h
    exact Decimal.mul_scale_le hm hn hl hr
  | div => cases hop
  | pow => cases hop

theorem apply_swap (hop : op = .add ∨ op = .mul) (h : op.Swappable l r) :
    op.apply scale r l = op.apply scale l r := by
  rcases hop with rfl | rfl
  · exact congrArg Except.ok ((Decimal.add_comm_iff l r).mpr (h rfl))
  · exact congrArg Except.ok (Decimal.mul_comm r l)

end Operator

/-! ## trees -/

namespace Expr

/-- the places of a result on paper -/
def naturalScale : Expr Decimal → ℤ
  | leaf d => d.scale
  | binary op l r => op.naturalScale l.naturalScale r.naturalScale

/-- `p` holds of every operator in a tree and the values of its operands -/
def Everywhere (scale : ℤ) (p : Operator → Decimal → Decimal → Prop) (t : Expr Decimal) : Prop :=
  ∀ op l r a b, binary op l r ∈ t.subtrees → l.value scale = .ok a → r.value scale = .ok b →
    p op a b

/-- the same tree with the operands of some of its sums and products swapped -/
inductive Rearranged : Expr Decimal → Expr Decimal → Prop
  | leaf (d : Decimal) : Rearranged (leaf d) (leaf d)
  | same {op : Operator} {l r l' r' : Expr Decimal} (hl : Rearranged l l')
    (hr : Rearranged r r') : Rearranged (binary op l r) (binary op l' r')
  | swapped {op : Operator} {l r l' r' : Expr Decimal} (hop : op = .add ∨ op = .mul)
    (hl : Rearranged l l') (hr : Rearranged r r') : Rearranged (binary op l r) (binary op r' l')

theorem Rearranged.refl (t : Expr Decimal) : t.Rearranged t := by
  induction t with
  | leaf d => exact .leaf d
  | binary op l r ihl ihr => exact .same ihl ihr

/-- the text that the value of a tree is printed as -/
def printed (scale : ℤ) (t : Expr Decimal) : Except Rejection String :=
  (Node.evaluate scale t.postorder).outcome.map Decimal.plain

variable {scale : ℤ} {p : Operator → Decimal → Decimal → Prop}

theorem everywhere_leaf (d : Decimal) : (leaf d).Everywhere scale p := by
  intro op l r a b h
  cases List.mem_singleton.mp h

theorem everywhere_binary {op : Operator} {l r : Expr Decimal} {a b : Decimal}
    (hl : l.value scale = .ok a) (hr : r.value scale = .ok b) :
    (binary op l r).Everywhere scale p ↔
      p op a b ∧ l.Everywhere scale p ∧ r.Everywhere scale p := by
  constructor
  · intro h
    refine ⟨h op l r a b (mem_subtrees_self _) hl hr, ?_, ?_⟩
    · intro op' l' r' a' b' hs
      exact h op' l' r' a' b' (mem_subtrees_left hs op r)
    · intro op' l' r' a' b' hs
      exact h op' l' r' a' b' (mem_subtrees_right hs op l)
  · rintro ⟨hp, hel, her⟩ op' l' r' a' b' hs hl' hr'
    rcases List.mem_cons.mp hs with he | hs
    · cases he
      cases hl.symm.trans hl'
      cases hr.symm.trans hr'
      exact hp
    · rcases List.mem_append.mp hs with hs | hs
      · exact hel op' l' r' a' b' hs hl' hr'
      · exact her op' l' r' a' b' hs hl' hr'

theorem values_of_everywhere {op : Operator} {l r : Expr Decimal}
    (hring : (binary op l r).isRing = true) (h : (binary op l r).Everywhere scale p) :
    ∃ a b, l.value scale = .ok a ∧ r.value scale = .ok b ∧ p op a b ∧
      l.Everywhere scale p ∧ r.Everywhere scale p := by
  obtain ⟨-, hl, hr⟩ := isRing_binary hring
  obtain ⟨a, ha⟩ := exists_value_of_isRing hl scale
  obtain ⟨b, hb⟩ := exists_value_of_isRing hr scale
  exact ⟨a, b, ha, hb, (everywhere_binary ha hb).mp h⟩

/-- A property of trees holds of all trees below if `p` holds of all operators, and is decided by
`p` at the root where this is so for both operands. -/
theorem forall_subtrees_iff {P : Expr Decimal → Prop} (hleaf : ∀ d, P (leaf d))
    (hop : ∀ op l r a b, op.isRing = true → l.isRing = true → r.isRing = true →
      l.value scale = .ok a → r.value scale = .ok b → l.Everywhere scale p →
      r.Everywhere scale p → (P (binary op l r) ↔ p op a b))
    {t : Expr Decimal} (h : t.isRing = true) :
    (∀ s ∈ t.subtrees, P s) ↔ t.Everywhere scale p := by
  induction t with
  | leaf d =>
    refine iff_of_true (fun s hs => ?_) (everywhere_leaf d)
    rw [List.mem_singleton.mp hs]
    exact hleaf d
  | binary op l r ihl ihr =>
    obtain ⟨ho, hl, hr⟩ := isRing_binary h
    obtain ⟨a, ha⟩ := exists_value_of_isRing hl scale
    obtain ⟨b, hb⟩ := exists_value_of_isRing hr scale
    -- both operands are settled by induction, and only the root is left to compare
    rw [subtrees, List.forall_mem_cons, List.forall_mem_append, ihl hl, ihr hr,
      everywhere_binary ha hb]
    exact and_congr_left fun hel => hop op l r a b ho hl hr ha hb hel.1 hel.2

/-! ## scales -/

theorem scale_eq_naturalScale {t : Expr Decimal} {v : Decimal} (hring : t.isRing = true)
    (hk : t.Everywhere scale Operator.Keeps) (hv : t.value scale = .ok v) :
    v.scale = t.naturalScale := by
  induction t generalizing v with
  | leaf d =>
    cases hv
    rfl
  | binary op l r ihl ihr =>
    obtain ⟨ho, hl, hr⟩ := isRing_binary hring
    obtain ⟨a, b, ha, hb, hop⟩ := value_binary_eq_ok hv
    obtain ⟨hp, hkl, hkr⟩ := (everywhere_binary ha hb).mp hk
    rw [(Operator.scale_eq_naturalScale_iff ho hop).mpr hp, ihl hl hkl ha, ihr hr hkr hb]
    rfl

theorem naturalScale_nonneg {t : Expr Decimal} (h : ∀ d, leaf d ∈ t.subtrees → 0 ≤ d.scale) :
    0 ≤ t.naturalScale := by
  induction t with
  | leaf d => exact h d (mem_subtrees_self _)
  | binary op l r ihl ihr =>
    have hl := ihl fun d hd => h d (mem_subtrees_left hd op r)
    have hr := ihr fun d hd => h d (mem_subtrees_right hd op l)
    show 0 ≤ if op = .mul then l.naturalScale + r.naturalScale
      else max l.naturalScale r.naturalScale
    split
    · exact add_nonneg hl hr
    · exact le_max_of_le_left hl

theorem scale_le_naturalScale {t : Expr Decimal} {v : Decimal} (hring : t.isRing = true)
    (h : ∀ d, leaf d ∈ t.subtrees → 0 ≤ d.scale) (hv : t.value scale = .ok v) :
    v.scale ≤ t.naturalScale := by
  induction t generalizing v with
  | leaf d =>
    cases hv
    exact le_rfl
  | binary op l r ihl ihr =>
    obtain ⟨ho, hl, hr⟩ := isRing_binary hring
    obtain ⟨a, b, ha, hb, hop⟩ := value_binary_eq_ok hv
    have hdl := fun d hd => h d (mem_subtrees_left hd op r)
    have hdr := fun d hd => h d (mem_subtrees_right hd op l)
    exact Operator.scale_le_naturalScale ho (naturalScale_nonneg hdl) (naturalScale_nonneg hdr)
      (ihl hl hdl ha) (ihr hr hdr hb) hop

/-! ## order of operands -/

theorem value_of_rearranged {t t' : Expr Decimal} (h : t.Rearranged t') (hring : t.isRing = true)
    (hs : t.Everywhere scale Operator.Swappable) : t'.value scale = t.value scale := by
  induction h with
  | leaf d => rfl
  | same hl hr ihl ihr =>
    obtain ⟨-, hringl, hringr⟩ := isRing_binary hring
    obtain ⟨a, b, ha, hb, -, hsl, hsr⟩ := values_of_everywhere hring hs
    rw [value_binary_of_ok ((ihl hringl hsl).trans ha) ((ihr hringr hsr).trans hb),
      value_binary_of_ok ha hb]
  | swapped hop hl hr ihl ihr =>
    obtain ⟨-, hringl, hringr⟩ := isRing_binary hring
    obtain ⟨a, b, ha, hb, hp, hsl, hsr⟩ := values_of_everywhere hring hs
    rw [value_binary_of_ok ((ihr hringr hsr).trans hb) ((ihl hringl hsl).trans ha),
      value_binary_of_ok ha hb, Operator.apply_swap hop hp]

theorem printed_of_value {t : Expr Decimal} {v : Decimal} (h : t.value scale = .ok v) :
    t.printed scale = .ok v.plain := by
  unfold printed
  rw [Node.evaluate_postorder_eq_ok_iff.mpr h]
  rfl

/-- two texts for the two orders of a sum are those of zeros too far apart -/
theorem swappable_of_printed {op : Operator} {l r : Expr Decimal} {a b : Decimal}
    (ha : l.value scale = .ok a) (hb : r.value scale = .ok b)
    (h : ∀ s, (binary op l r).Rearranged s → s.printed scale = (binary op l r).printed scale) :
    op.Swappable a b := by
  rintro rfl
  have hswap := h _ (.swapped (Or.inl rfl) (.refl l) (.refl r))
  rw [printed_of_value (value_binary_of_ok hb ha .add),
    printed_of_value (value_binary_of_ok ha hb .add)] at hswap
  exact (Decimal.add_comm_iff a b).mp ((Decimal.plain_add_comm_iff a b).mp (Except.ok.inj hswap))

/-! ## natural scales -/

/-- A tree of sums, differences and products has a value, with no more places than its natural scale
if its leaves are written numbers. It and all trees below have their natural scale exactly if all
operators keep the places of their operands, and are printed the same in every order of operands
exactly if no sum has two zeros whose scales are too far apart. -/
theorem natural_scales (scale : ℤ) {t : Expr Decimal} (hring : t.isRing = true) :
    (∃ v, (Node.evaluate scale t.postorder).outcome = .ok v ∧
      ((∀ d, leaf d ∈ t.subtrees → 0 ≤ d.scale) → v.scale ≤ t.naturalScale)) ∧
    ((∀ s ∈ t.subtrees, ∃ v, (Node.evaluate scale s.postorder).outcome = .ok v ∧
      v.scale = s.naturalScale) ↔ t.Everywhere scale Operator.Keeps) ∧
    ((∀ s ∈ t.subtrees, ∀ s', s.Rearranged s' → s'.printed scale = s.printed scale) ↔
      t.Everywhere scale Operator.Swappable) := by
  refine ⟨?_, ?_, ?_⟩
  · obtain ⟨v, hv⟩ := exists_value_of_isRing hring scale
    exact ⟨v, Node.evaluate_postorder_eq_ok_iff.mpr hv, fun h => scale_le_naturalScale hring h hv⟩
  · refine forall_subtrees_iff (fun d => ⟨d, rfl, rfl⟩) ?_ hring
    intro op l r a b ho hl hr ha hb hkl hkr
    have hscales : op.naturalScale a.scale b.scale = (binary op l r).naturalScale := by
      rw [scale_eq_naturalScale hl hkl ha, scale_eq_naturalScale hr hkr hb]
      rfl
    constructor
    · rintro ⟨v, hv, hs⟩
      rw [Node.evaluate_postorder_eq_ok_iff, value_binary_of_ok ha hb] at hv
      exact (Operator.scale_eq_naturalScale_iff ho hv).mp (hs.trans hscales.symm)
    · intro hk
      obtain ⟨v, hv⟩ := Operator.exists_apply_of_isRing ho scale a b
      refine ⟨v, ?_, ((Operator.scale_eq_naturalScale_iff ho hv).mpr hk).trans hscales⟩
      rw [Node.evaluate_postorder_eq_ok_iff, value_binary_of_ok ha hb, hv]
  · refine forall_subtrees_iff (fun d s' hs => ?_) ?_ hring
    · cases hs
      rfl
    · intro op l r a b ho hl hr ha hb hsl hsr
      refine ⟨swappable_of_printed ha hb, fun hp s' hs => ?_⟩
      have hringb : (binary op l r).isRing = true := by
        rw [isRing, ho, hl, hr]
        rfl
      have hvalue := value_of_rearranged hs hringb ((everywhere_binary ha hb).mpr ⟨hp, hsl, hsr⟩)
      unfold printed
      rw [Node.outcome_evaluate_postorder, Node.outcome_evaluate_postorder, hvalue]

/-- a place is lost beside a factor that is one -/
theorem natural_scales_beside_one :
    (binary .mul (leaf Decimal.one) (leaf ⟨150, 2⟩)).isRing = true ∧
      (binary .mul (leaf Decimal.one) (leaf ⟨150, 2⟩)).naturalScale = 2 ∧
      (Node.evaluate 20 (binary .mul (leaf Decimal.one) (leaf ⟨150, 2⟩)).postorder).outcome =
        .ok ⟨15, 1⟩ ∧
      ¬ (binary .mul (leaf Decimal.one) (leaf ⟨150, 2⟩)).Everywhere 20 Operator.Keeps := by
  have hring : (binary .mul (leaf Decimal.one) (leaf ⟨150, 2⟩)).isRing = true := rfl
  have hv : (Node.evaluate 20 (binary .mul (leaf Decimal.one) (leaf ⟨150, 2⟩)).postorder).outcome =
      .ok ⟨15, 1⟩ := by decide +kernel
  refine ⟨hring, rfl, hv, fun h => ?_⟩
  obtain ⟨w, hw, hs⟩ := (natural_scales 20 hring).2.1.mpr h _ (mem_subtrees_self _)
  cases hv.symm.trans hw
  exact absurd hs (by decide)

end Expr

end DecimalCalculator
