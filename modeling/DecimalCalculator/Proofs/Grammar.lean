import DecimalCalculator.Proofs.Expr
import Mathlib.Data.List.Chain

/-!
# The grammar of expressions

Phrases have four levels, and all operators group to the left, `^` included:

    level 1   sums       E → E ('+' | '-') T | T
    level 2   products   T → T ('*' | '/') F | F
    level 3   powers     F → F '^' P | P
    level 4   primaries  P → number | identifier | '(' E ')'

So an operator joins a phrase of the level of its precedence on its left and one of the next level
on its right (`Derives.binary`), and nothing else does (`Derives.rec_levels`).

* `Derives k ts e`       the tokens `ts` are a phrase of level `k` with the tree `e`;
* `Separated ts`         no two operands stand next to each other in `ts`;
* `depth? d ts`          the open parentheses behind `ts`, if `d` of them were open in front of it
                         and none is closed that was not opened;
* `Alternates d b ts`    `ts` goes on from `d` open parentheses, behind an operand (`b`) or in front
                         of one, operands and operators take turns, and all parentheses are closed.

The tree depends on precedence, but whether there is one does not: `exists_derives_of_alternates`
finds a tree for every list whose operands and operators take turns. And they do
(`alternates_of_balanced`) if parentheses match, no two operands are neighbours, and there is one
operand more than there are operators.
-/

namespace DecimalCalculator

/-! ## operands -/

/-- a leaf of an expression as it is written: a number or a name -/
inductive Operand where
  | number (value : Decimal)
  | identifier (name : String)

def Operand.token : Operand → Token
  | .number v => .number v
  | .identifier name => .identifier name

/-- the value of an operand, if its name is bound -/
def Operand.value? (value? : String → Option Decimal) : Operand → Option Decimal
  | .number v => some v
  | .identifier name => value? name

/-- a tree with its names replaced by their values, if all of them are bound -/
def Expr.resolve (value? : String → Option Decimal) : Expr Operand → Option (Expr Decimal)
  | .leaf a => (a.value? value?).map .leaf
  | .binary op l r => do
    let l' ← l.resolve value?
    let r' ← r.resolve value?
    some (.binary op l' r')

theorem Expr.resolve_binary_eq_some {value? : String → Option Decimal} {op : Operator}
    {l r : Expr Operand} {t : Expr Decimal} (h : (binary op l r).resolve value? = some t) :
    ∃ l' r', l.resolve value? = some l' ∧ r.resolve value? = some r' ∧ t = .binary op l' r' := by
  obtain ⟨l', hl, h⟩ := Option.bind_eq_some_iff.mp h
  obtain ⟨r', hr, h⟩ := Option.bind_eq_some_iff.mp h
  exact ⟨l', r', hl, hr, (Option.some.inj h).symm⟩

/-! ## derivations -/

inductive Derives : Nat → List Token → Expr Operand → Prop
  | sum {op : Operator} {ls rs : List Token} {l r : Expr Operand} :
      op = .add ∨ op = .sub → Derives 1 ls l → Derives 2 rs r →
      Derives 1 (ls ++ .operator op :: rs) (.binary op l r)
  | ofProduct {ts : List Token} {e : Expr Operand} : Derives 2 ts e → Derives 1 ts e
  | product {op : Operator} {ls rs : List Token} {l r : Expr Operand} :
      op = .mul ∨ op = .div → Derives 2 ls l → Derives 3 rs r →
      Derives 2 (ls ++ .operator op :: rs) (.binary op l r)
  | ofPower {ts : List Token} {e : Expr Operand} : Derives 3 ts e → Derives 2 ts e
  | power {ls rs : List Token} {l r : Expr Operand} :
      Derives 3 ls l → Derives 4 rs r →
      Derives 3 (ls ++ .operator .pow :: rs) (.binary .pow l r)
  | ofPrimary {ts : List Token} {e : Expr Operand} : Derives 4 ts e → Derives 3 ts e
  | operand (a : Operand) : Derives 4 [a.token] (.leaf a)
  | group {ts : List Token} {e : Expr Operand} :
      Derives 1 ts e → Derives 4 (.opening :: (ts ++ [.closing])) e

theorem Operator.one_le_precedence (op : Operator) : 1 ≤ op.precedence := by
  cases op <;> decide
theorem Operator.precedence_le_three (op : Operator) : op.precedence ≤ 3 := by
  cases op <;> decide

namespace Derives

/-- an operator joins phrases of its precedence and of the next level -/
theorem binary {op : Operator} {ls rs : List Token} {l r : Expr Operand}
    (hl : Derives op.precedence ls l) (hr : Derives (op.precedence + 1) rs r) :
    Derives op.precedence (ls ++ .operator op :: rs) (.binary op l r) := by
  cases op with
  | add => exact .sum (.inl rfl) hl hr
  | sub => exact .sum (.inr rfl) hl hr
  | mul => exact .product (.inl rfl) hl hr
  | div => exact .product (.inr rfl) hl hr
  | pow => exact .power hl hr

/-- a phrase of one level is a phrase of the level in front of it -/
theorem lift {k : Nat} {ts : List Token} {e : Expr Operand} (h1 : 1 ≤ k) (h3 : k ≤ 3)
    (h : Derives (k + 1) ts e) : Derives k ts e := by
  match k, h1, h3 with
  | 1, _, _ => exact .ofProduct h
  | 2, _, _ => exact .ofPower h
  | 3, _, _ => exact .ofPrimary h

/-- induction on a derivation, with one case for all operators and one for all levels -/
theorem rec_levels {motive : ∀ k ts e, Derives k ts e → Prop}
    (operand : ∀ a, motive 4 _ _ (.operand a))
    (group : ∀ {ts e} (h : Derives 1 ts e), motive 1 ts e h → motive 4 _ _ (.group h))
    (lift : ∀ {k ts e} (h1 : 1 ≤ k) (h3 : k ≤ 3) (h : Derives (k + 1) ts e),
      motive (k + 1) ts e h → motive k ts e (.lift h1 h3 h))
    (binary : ∀ (op : Operator) {ls rs l r} (hl : Derives op.precedence ls l)
      (hr : Derives (op.precedence + 1) rs r), motive op.precedence ls l hl →
      motive (op.precedence + 1) rs r hr → motive op.precedence _ _ (.binary hl hr))
    {k : Nat} {ts : List Token} {e : Expr Operand} (h : Derives k ts e) : motive k ts e h := by
  induction h with
  | sum hop hl hr ihl ihr =>
    obtain rfl | rfl := hop
    · exact binary .add hl hr ihl ihr
    · exact binary .sub hl hr ihl ihr
  | ofProduct h ih => exact lift (by decide) (by decide) h ih
  | product hop hl hr ihl ihr =>
    obtain rfl | rfl := hop
    · exact binary .mul hl hr ihl ihr
    · exact binary .div hl hr ihl ihr
  | ofPower h ih => exact lift (by decide) (by decide) h ih
  | power hl hr ihl ihr => exact binary .pow hl hr ihl ihr
  | ofPrimary h ih => exact lift (by decide) (by decide) h ih
  | operand a => exact operand a
  | group h ih => exact group h ih

/-- a primary is a phrase of every level -/
theorem of_primary {ts : List Token} {e : Expr Operand} (h : Derives 4 ts e) {k : Nat}
    (h1 : 1 ≤ k) (h4 : k ≤ 4) : Derives k ts e := by
  match k, h1, h4 with
  | 1, _, _ => exact .ofProduct (.ofPower (.ofPrimary h))
  | 2, _, _ => exact .ofPower (.ofPrimary h)
  | 3, _, _ => exact .ofPrimary h
  | 4, _, _ => exact h

/-- a primary behind an operator extends a phrase of any level that the operator fits into -/
theorem exists_snoc {k : Nat} {ls rs : List Token} {l r : Expr Operand} (hl : Derives k ls l)
    (hr : Derives 4 rs r) {op : Operator} (hk : k ≤ op.precedence) :
    ∃ e, Derives k (ls ++ .operator op :: rs) e := by
  have hop := op.precedence_le_three
  induction hl using rec_levels with
  | operand a => omega
  | group _ _ => omega
  | @lift k ts e h1 h3 hts ih =>
    by_cases h : k = op.precedence
    · subst h
      exact ⟨_, .binary (.lift h1 h3 hts) (hr.of_primary (by omega) (by omega))⟩
    · obtain ⟨e', he'⟩ := ih (by omega)
      exact ⟨e', .lift h1 h3 he'⟩
  | @binary op' ls' rs' l' r' hls hrs _ ihr =>
    by_cases h : op'.precedence = op.precedence
    · have hd : Derives op'.precedence (ls' ++ .operator op' :: rs') (.binary op' l' r') :=
        .binary hls hrs
      rw [h] at hd ⊢
      exact ⟨_, .binary hd (hr.of_primary (by omega) (by omega))⟩
    · obtain ⟨e', he'⟩ := ihr (by omega)
      refine ⟨.binary op' l' e', ?_⟩
      rw [List.append_assoc, List.cons_append]
      exact .binary hls he'

end Derives

/-! ## operands next to each other -/

namespace Token

/-- an operand may end with this token -/
def endsOperand : Token → Bool
  | number _ | identifier _ | closing => true
  | _ => false

/-- an operand may begin with this token -/
def startsOperand : Token → Bool
  | number _ | identifier _ | opening => true
  | _ => false

end Token

/-- no token that ends an operand stands in front of one that begins an operand -/
def Separated (ts : List Token) : Prop :=
  ts.IsChain fun a b => ¬ (a.endsOperand = true ∧ b.startsOperand = true)

instance (ts : List Token) : Decidable (Separated ts) :=
  inferInstanceAs (Decidable (ts.IsChain _))

theorem separated_of_derives {k : Nat} {ts : List Token} {e : Expr Operand}
    (h : Derives k ts e) : Separated ts := by
  unfold Separated
  induction h using Derives.rec_levels with
  | operand a => exact .singleton _
  | group _ ih =>
    refine List.isChain_cons.mpr ⟨fun y _ h => Bool.false_ne_true h.1, ?_⟩
    refine List.isChain_append.mpr ⟨ih, .singleton _, fun x _ y hy h => ?_⟩
    cases hy
    exact Bool.false_ne_true h.2
  | lift _ _ _ ih => exact ih
  | binary _ _ _ ihl ihr =>
    refine List.isChain_append.mpr ⟨ihl, ?_, fun x _ y hy h => ?_⟩
    · exact List.isChain_cons.mpr ⟨fun y _ h => Bool.false_ne_true h.1, ihr⟩
    · cases hy
      exact Bool.false_ne_true h.2

/-! ## counting -/

namespace Token

def operand? : Token → Option Operand
  | number v => some (.number v)
  | identifier name => some (.identifier name)
  | _ => none

def operator? : Token → Option Operator
  | operator op => some op
  | _ => none

/-- the operands of a list of tokens, in order -/
def operands (ts : List Token) : List Operand := ts.filterMap operand?

/-- the operators of a list of tokens, in order -/
def operators (ts : List Token) : List Operator := ts.filterMap operator?

/-- the open parentheses behind a list of tokens, if `d` are open in front of it; a parenthesis
that closes none has no depth -/
def depth? : Nat → List Token → Option Nat
  | d, [] => some d
  | d, opening :: ts => depth? (d + 1) ts
  | 0, closing :: _ => none
  | d + 1, closing :: ts => depth? d ts
  | d, number _ :: ts => depth? d ts
  | d, identifier _ :: ts => depth? d ts
  | d, operator _ :: ts => depth? d ts

theorem operands_token (a : Operand) (ts : List Token) :
    operands (a.token :: ts) = a :: operands ts := by cases a <;> rfl
theorem operands_operator (op : Operator) (ts : List Token) :
    operands (operator op :: ts) = operands ts := rfl
theorem operands_closing (ts : List Token) : operands (closing :: ts) = operands ts := rfl

theorem operators_token (a : Operand) (ts : List Token) :
    operators (a.token :: ts) = operators ts := by cases a <;> rfl
theorem operators_operator (op : Operator) (ts : List Token) :
    operators (operator op :: ts) = op :: operators ts := rfl
theorem operators_closing (ts : List Token) : operators (closing :: ts) = operators ts := rfl

theorem depth?_nil (d : Nat) : depth? d [] = some d := by cases d <;> rfl
theorem depth?_token (d : Nat) (a : Operand) (ts : List Token) :
    depth? d (a.token :: ts) = depth? d ts := by cases a <;> cases d <;> rfl
theorem depth?_operator (d : Nat) (op : Operator) (ts : List Token) :
    depth? d (operator op :: ts) = depth? d ts := by cases d <;> rfl
theorem depth?_opening (d : Nat) (ts : List Token) :
    depth? d (opening :: ts) = depth? (d + 1) ts := by cases d <;> rfl

theorem startsOperand_token (a : Operand) : a.token.startsOperand = true := by cases a <;> rfl
theorem endsOperand_token (a : Operand) : a.token.endsOperand = true := by cases a <;> rfl

/-- induction on a list of tokens by the kinds of token -/
theorem rec_kinds {motive : List Token → Prop} (nil : motive [])
    (operand : ∀ a ts, motive ts → motive (Operand.token a :: ts))
    (operator : ∀ op ts, motive ts → motive (.operator op :: ts))
    (opening : ∀ ts, motive ts → motive (.opening :: ts))
    (closing : ∀ ts, motive ts → motive (.closing :: ts)) (ts : List Token) : motive ts := by
  induction ts with
  | nil => exact nil
  | cons t ts ih =>
    cases t with
    | number v => exact operand (.number v) ts ih
    | identifier name => exact operand (.identifier name) ts ih
    | operator op => exact operator op ts ih
    | opening => exact opening ts ih
    | closing => exact closing ts ih

end Token

/-! ## operands and operators that take turns -/

inductive Alternates : Nat → Bool → List Token → Prop
  | done : Alternates 0 true []
  | operand {d : Nat} {ts : List Token} (a : Operand) :
      Alternates d true ts → Alternates d false (a.token :: ts)
  | opening {d : Nat} {ts : List Token} :
      Alternates (d + 1) false ts → Alternates d false (.opening :: ts)
  | operator {d : Nat} {ts : List Token} (op : Operator) :
      Alternates d false ts → Alternates d true (.operator op :: ts)
  | closing {d : Nat} {ts : List Token} :
      Alternates d true ts → Alternates (d + 1) true (.closing :: ts)

/-- what stands between the last open parenthesis and the next token: a phrase (`true`), or nothing
but a phrase with its operator (`false`) -/
inductive Front : Bool → List Token → Prop
  | empty : Front false []
  | operator {ts : List Token} {e : Expr Operand} (op : Operator) :
      Derives 1 ts e → Front false (ts ++ [.operator op])
  | phrase {ts : List Token} {e : Expr Operand} : Derives 1 ts e → Front true ts

/-- what stands up to the last of `d` open parentheses -/
inductive Opened : Nat → List Token → Prop
  | none : Opened 0 []
  | snoc {d : Nat} {os ts : List Token} :
      Opened d os → Front false ts → Opened (d + 1) (os ++ ts ++ [.opening])

theorem Front.exists_derives {ts : List Token} (h : Front true ts) : ∃ e, Derives 1 ts e := by
  cases h with
  | phrase h => exact ⟨_, h⟩

/-- a primary completes what stands in front of it to a phrase -/
theorem Front.snoc {ls rs : List Token} {r : Expr Operand} (hl : Front false ls)
    (hr : Derives 4 rs r) : Front true (ls ++ rs) := by
  cases hl with
  | empty => exact .phrase (hr.of_primary (by omega) (by omega))
  | @operator ts e op h =>
    obtain ⟨e', he'⟩ := h.exists_snoc hr op.one_le_precedence
    rw [List.append_assoc]
    exact .phrase he'

/-- what takes turns to the end completes whatever may stand in front of it -/
theorem exists_derives_append {d : Nat} {b : Bool} {ts : List Token} (h : Alternates d b ts)
    {os fs : List Token} (ho : Opened d os) (hf : Front b fs) :
    ∃ e, Derives 1 (os ++ fs ++ ts) e := by
  induction h generalizing os fs with
  | done =>
    cases ho
    simpa using hf.exists_derives
  | operand a _ ih =>
    obtain ⟨e, he⟩ := ih ho (hf.snoc (.operand a))
    exact ⟨e, by simpa using he⟩
  | opening _ ih =>
    obtain ⟨e, he⟩ := ih (ho.snoc hf) .empty
    exact ⟨e, by simpa using he⟩
  | operator op _ ih =>
    obtain ⟨e, he⟩ := hf.exists_derives
    obtain ⟨e', he'⟩ := ih ho (.operator op he)
    exact ⟨e', by simpa using he'⟩
  | closing _ ih =>
    obtain ⟨e, he⟩ := hf.exists_derives
    cases ho with
    | snoc ho' hf' =>
      obtain ⟨e', he'⟩ := ih ho' (hf'.snoc (.group he))
      exact ⟨e', by simpa using he'⟩

theorem exists_derives_of_alternates {ts : List Token} (h : Alternates 0 false ts) :
    ∃ e, Derives 1 ts e := exists_derives_append h .none .empty

/-! ### by counting -/

/-- no operand begins where one has just ended (`b`) -/
def Continues (b : Bool) (ts : List Token) : Prop :=
  Separated ts ∧ (b = true → ∀ t ∈ ts.head?, t.startsOperand = false)

theorem Continues.tail {b : Bool} {t : Token} {ts : List Token} (h : Continues b (t :: ts)) :
    Continues t.endsOperand ts := by
  obtain ⟨hh, ht⟩ := List.isChain_cons.mp h.1
  refine ⟨ht, fun he y hy => ?_⟩
  have hn := hh y hy
  rw [he] at hn
  simpa using hn

theorem Continues.not_startsOperand {t : Token} {ts : List Token} (h : Continues true (t :: ts)) :
    t.startsOperand = false := h.2 rfl t rfl

/-- an operand that has not ended yet -/
def lacking (b : Bool) : Nat := if b then 0 else 1

/-- without neighbours there is at most one operand more than there are operators -/
theorem length_operands_le {b : Bool} {ts : List Token} (h : Continues b ts) :
    (Token.operands ts).length ≤ (Token.operators ts).length + lacking b := by
  induction ts using Token.rec_kinds generalizing b with
  | nil => exact Nat.zero_le _
  | operand a ts ih =>
    have ht := h.tail
    rw [Token.endsOperand_token] at ht
    have hle := ih ht
    cases b with
    | false =>
      rw [Token.operands_token, Token.operators_token, List.length_cons]
      simpa [lacking] using hle
    | true => exact absurd h.not_startsOperand (by simp [Token.startsOperand_token])
  | operator op ts ih =>
    have hle : (Token.operands ts).length ≤ (Token.operators ts).length + 1 := ih h.tail
    rw [Token.operands_operator, Token.operators_operator, List.length_cons]
    omega
  | opening ts ih =>
    cases b with
    | false => exact ih h.tail
    | true => exact absurd h.not_startsOperand (by simp [Token.startsOperand])
  | closing ts ih =>
    have hle : (Token.operands ts).length ≤ (Token.operators ts).length := ih h.tail
    rw [Token.operands_closing, Token.operators_closing]
    omega

/-- with matching parentheses and no neighbours, one operand more than operators is enough for them
to take turns: wherever one is missing, the count falls short for good -/
theorem alternates_of_balanced {d : Nat} {b : Bool} {ts : List Token}
    (hd : Token.depth? d ts = some 0) (h : Continues b ts)
    (hc : (Token.operands ts).length = (Token.operators ts).length + lacking b) :
    Alternates d b ts := by
  induction ts using Token.rec_kinds generalizing d b with
  | nil =>
    rw [Token.depth?_nil] at hd
    cases hd
    cases b with
    | false => cases hc
    | true => exact .done
  | operand a ts ih =>
    have ht := h.tail
    rw [Token.endsOperand_token] at ht
    rw [Token.depth?_token] at hd
    cases b with
    | false =>
      rw [Token.operands_token, Token.operators_token, List.length_cons] at hc
      exact .operand a (ih hd ht (by simpa [lacking] using hc))
    | true => exact absurd h.not_startsOperand (by simp [Token.startsOperand_token])
  | operator op ts ih =>
    have hle : (Token.operands ts).length ≤ (Token.operators ts).length + 1 :=
      length_operands_le h.tail
    rw [Token.depth?_operator] at hd
    rw [Token.operands_operator, Token.operators_operator, List.length_cons] at hc
    cases b with
    | false =>
      have hc' : (Token.operands ts).length = (Token.operators ts).length + 1 + 1 := hc
      omega
    | true => exact .operator op (ih hd h.tail hc)
  | opening ts ih =>
    rw [Token.depth?_opening] at hd
    cases b with
    | false => exact .opening (ih hd h.tail hc)
    | true => exact absurd h.not_startsOperand (by simp [Token.startsOperand])
  | closing ts ih =>
    have hle : (Token.operands ts).length ≤ (Token.operators ts).length :=
      length_operands_le h.tail
    rw [Token.operands_closing, Token.operators_closing] at hc
    cases b with
    | false =>
      have hc' : (Token.operands ts).length = (Token.operators ts).length + 1 := hc
      omega
    | true =>
      cases d with
      | zero => cases hd
      | succ d => exact .closing (ih hd h.tail hc)

end DecimalCalculator
