import DecimalCalculator.Calculator
import DecimalCalculator.Proofs.Conversion

/-!
# Nothing is lost by conversion

Every number goes out at once, so numbers keep their order (`numbers_of_ofTokens`). Every operator
waits on the stack, and what is on the stack and what is out are together the operators that went in
(`operators_of_feeds`). So at no time is an operator out that did not go in before: an operator in
front of the next number of the postfix form stands in front of the next operand of the expression
(`count_operator_le_beforeOperand`).
-/

namespace DecimalCalculator

/-! ## fronts of a list of tokens -/

namespace Token

/-- the tokens in front of the operand that `k` operands precede, or all if there is none -/
def beforeOperand : Nat → List Token → List Token
  | _, [] => []
  | k, t :: ts =>
    match operand? t, k with
    | none, k => t :: beforeOperand k ts
    | some _, 0 => []
    | some _, k + 1 => t :: beforeOperand k ts

theorem beforeOperand_nil (k : Nat) : beforeOperand k [] = [] := by cases k <;> rfl
theorem beforeOperand_zero_operand (a : Operand) (ts : List Token) :
    beforeOperand 0 (a.token :: ts) = [] := by cases a <;> rfl
theorem beforeOperand_succ_operand (k : Nat) (a : Operand) (ts : List Token) :
    beforeOperand (k + 1) (a.token :: ts) = a.token :: beforeOperand k ts := by cases a <;> rfl
theorem beforeOperand_cons {t : Token} (h : t.operand? = none) (k : Nat) (ts : List Token) :
    beforeOperand k (t :: ts) = t :: beforeOperand k ts := by
  simp only [beforeOperand, h]

/-- it ends in front of an operand that `k` operands precede -/
def EndsBefore (k : Nat) (front ts : List Token) : Prop :=
  ∃ a back, ts = front ++ Operand.token a :: back ∧ (operands front).length = k

theorem EndsBefore.cons {k : Nat} {front ts : List Token} (h : EndsBefore k front ts) (t : Token) :
    EndsBefore (k + (operands [t]).length) (t :: front) (t :: ts) := by
  obtain ⟨a, back, rfl, rfl⟩ := h
  refine ⟨a, back, rfl, ?_⟩
  rw [← List.singleton_append, operands, List.filterMap_append, List.length_append, Nat.add_comm]
  rfl

theorem beforeOperand_eq_or_endsBefore (k : Nat) (ts : List Token) :
    beforeOperand k ts = ts ∨ EndsBefore k (beforeOperand k ts) ts := by
  induction ts generalizing k with
  | nil => exact Or.inl (beforeOperand_nil k)
  | cons t ts ih =>
    cases ht : operand? t with
    | none =>
      rw [beforeOperand_cons ht]
      have hcons := (ih k).imp (congrArg (t :: ·)) (EndsBefore.cons · t)
      rwa [operands, List.filterMap_cons_none ht] at hcons
    | some a =>
      have ha : t = a.token := by
        cases t with
        | number v => cases ht; rfl
        | identifier name => cases ht; rfl
        | operator op => cases ht
        | opening => cases ht
        | closing => cases ht
      subst ha
      cases k with
      | zero =>
        rw [beforeOperand_zero_operand]
        exact Or.inr ⟨a, ts, rfl, rfl⟩
      | succ k =>
        rw [beforeOperand_succ_operand]
        have hcons := (ih k).imp (congrArg (a.token :: ·)) (EndsBefore.cons · a.token)
        rwa [operands_token] at hcons

/-! ## counting -/

theorem count_operators (op : Operator) (ts : List Token) :
    (operators ts).count op = ts.count (.operator op) := by
  rw [operators, List.count_filterMap, List.count_eq_countP]
  refine List.countP_congr fun t _ => ?_
  cases t <;> simp [operator?]

/-- every token is an operand, an operator or a parenthesis -/
theorem length_eq (ts : List Token) :
    (operands ts).length + (operators ts).length + ts.count opening + ts.count closing =
      ts.length := by
  induction ts with
  | nil => rfl
  | cons t ts ih =>
    rw [List.length_cons, ← ih]
    cases t <;> simp [operands, operators, List.filterMap_cons, operand?, operator?] <;> omega

end Token

namespace Node

theorem count_operators (op : Operator) (nodes : List Node) :
    (operators nodes).count op = nodes.count (.operator op) := by
  rw [operators, List.count_filterMap, List.count_eq_countP]
  refine List.countP_congr fun n _ => ?_
  cases n <;> simp [operator?]

/-- every node is a number or an operator -/
theorem length_eq (nodes : List Node) :
    (numbers nodes).length + (operators nodes).length = nodes.length := by
  induction nodes with
  | nil => rfl
  | cons n nodes ih =>
    rw [List.length_cons, ← ih]
    cases n <;> simp [numbers, operators, List.filterMap_cons, number?, operator?] <;> omega

variable {value? : String → Option Decimal} {ts : List Token} {nodes : List Node}

theorem count_operator_of_ofTokens (h : ofTokens value? ts = .ok nodes) (op : Operator) :
    nodes.count (.operator op) = ts.count (.operator op) := by
  rw [← count_operators, ← Token.count_operators]
  exact (operators_of_ofTokens h).count_eq op

theorem length_of_ofTokens (h : ofTokens value? ts = .ok nodes) :
    nodes.length + ts.count .opening + ts.count .closing = ts.length := by
  rw [← length_eq, length_numbers_of_ofTokens h, length_operators_of_ofTokens h]
  exact Token.length_eq ts

/-! ## fronts of a postfix form -/

/-- from the empty stack no operator comes out that did not go in -/
theorem count_operator_le_of_feeds {out : List Node} {last : List Pending}
    (h : Feeds value? [] ts out last) (op : Operator) :
    out.count (.operator op) ≤ ts.count (.operator op) := by
  have hcount := (operators_of_feeds h).count_eq op
  rw [List.filterMap_nil, List.append_nil, List.count_append] at hcount
  rw [← count_operators, ← Token.count_operators, ← hcount]
  exact Nat.le_add_right _ _

theorem exists_number_of_takes {a : Operand} {stack next : List Pending} {out : List Node}
    (h : Takes value? stack a.token out next) : ∃ v, out = [.number v] := by
  have hfeed := feed_eq_ok_iff.mpr h
  cases a with
  | number v =>
    cases hfeed
    exact ⟨v, rfl⟩
  | identifier name =>
    cases hv : value? name with
    | none =>
      simp only [Operand.token, feed, hv] at hfeed
      cases hfeed
    | some v =>
      simp only [Operand.token, feed, hv] at hfeed
      cases hfeed
      exact ⟨v, rfl⟩

/-- the nodes in front of an operand's number are those that its front has released -/
theorem exists_feeds_of_endsBefore {k : Nat} {front : List Token}
    (h : ofTokens value? ts = .ok nodes) (hf : Token.EndsBefore k front ts) :
    ∃ out last v rest, Feeds value? [] front out last ∧ nodes = out ++ .number v :: rest ∧
      (numbers out).length = k := by
  obtain ⟨a, back, rfl, rfl⟩ := hf
  obtain ⟨all, ops, hfeeds, rfl⟩ := ofTokens_eq_ok_iff.mp h
  obtain ⟨out, mid, out2, h1, h2, rfl⟩ := hfeeds.exists_of_append
  cases h2 with
  | @cons _ next _ _ _ out2 outs ht h2 =>
    have hnumbers : (numbers out).length = (Token.operands front).length := by
      simpa using congrArg List.length (numbers_of_feeds h1)
    obtain ⟨v, rfl⟩ := exists_number_of_takes ht
    exact ⟨out, mid, v, outs ++ ops.map .operator, h1, by simp, hnumbers⟩

/-- An operator in front of the next number of the postfix form stands in front of the next operand
of the expression. -/
theorem count_operator_le_beforeOperand (h : ofTokens value? ts = .ok nodes) {front : List Node}
    (hf : front <+: nodes) (op : Operator) :
    front.count (.operator op) ≤
      (Token.beforeOperand (numbers front).length ts).count (.operator op) := by
  rcases Token.beforeOperand_eq_or_endsBefore (numbers front).length ts with hall | hends
  · rw [hall, ← count_operator_of_ofTokens h]
    exact hf.sublist.count_le _
  · obtain ⟨out, last, v, rest, hfeeds, rfl, hlen⟩ := exists_feeds_of_endsBefore h hends
    refine le_trans ?_ (count_operator_le_of_feeds hfeeds op)
    rcases List.prefix_or_prefix_of_prefix hf (List.prefix_append out (.number v :: rest)) with
      hout | ⟨more, rfl⟩
    · exact hout.sublist.count_le _
    · rw [numbers_append, List.length_append] at hlen
      have hmore := (List.prefix_append_right_inj out).mp hf
      rcases List.prefix_cons_iff.mp hmore with rfl | ⟨more, rfl, -⟩
      · rw [List.append_nil]
      · have hpos : (numbers (.number v :: more)).length = (numbers more).length + 1 := rfl
        omega

/-- The postfix form of a list of tokens has the values of its operands in their order, each operator
as often as the list, and nothing else; and in no front of it is an operator that stands behind the
next operand of the list. -/
theorem conserved {value? : String → Option Decimal} {ts : List Token} {nodes : List Node}
    (h : (nodeStage value? ts).outcome = .ok nodes) :
    (numbers nodes).map some = (Token.operands ts).map (Operand.value? value?) ∧
    (∀ op, nodes.count (.operator op) = ts.count (.operator op)) ∧
    (∀ front, front <+: nodes → ∀ op, front.count (.operator op) ≤
      (Token.beforeOperand (numbers front).length ts).count (.operator op)) ∧
    nodes.length + ts.count .opening + ts.count .closing = ts.length := by
  rw [outcome_nodeStage] at h
  exact ⟨numbers_of_ofTokens h, count_operator_of_ofTokens h,
    fun _ hf => count_operator_le_beforeOperand h hf, length_of_ofTokens h⟩

/-- `2 ( - a ) *`, which no tree has -/
theorem conserved_without_tree :
    (nodeStage (Bindings.empty.set "a" ⟨5, 0⟩).get?
      [.number ⟨2, 0⟩, .opening, .operator .sub, .identifier "a", .closing, .operator .mul]).outcome =
      .ok [.number ⟨2, 0⟩, .number ⟨5, 0⟩, .operator .sub, .operator .mul] ∧
    ∀ front, front <+: [Node.number ⟨2, 0⟩, .number ⟨5, 0⟩, .operator .sub, .operator .mul] →
      ∀ op, front.count (.operator op) ≤ (Token.beforeOperand (numbers front).length
        [.number ⟨2, 0⟩, .opening, .operator .sub, .identifier "a", .closing,
          .operator .mul]).count (.operator op) := by
  have h : (nodeStage (Bindings.empty.set "a" ⟨5, 0⟩).get?
      [.number ⟨2, 0⟩, .opening, .operator .sub, .identifier "a", .closing, .operator .mul]).outcome =
      .ok [.number ⟨2, 0⟩, .number ⟨5, 0⟩, .operator .sub, .operator .mul] := by decide +kernel
  obtain ⟨-, -, hfront, -⟩ := conserved h
  exact ⟨h, hfront⟩

end Node

end DecimalCalculator
