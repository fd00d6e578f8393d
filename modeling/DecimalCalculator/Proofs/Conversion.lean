import DecimalCalculator.Postfix.Conversion
import DecimalCalculator.Proofs.Grammar
import Mathlib.Data.List.Perm.Basic

/-!
# What the stack of operators does

`Takes` is one step of the conversion as a rule for each kind of token, with all that the step
relies on, and `Feeds` is a run of such steps:

    feed_eq_ok_iff          a token is accepted exactly by the rule of its kind;
    ofTokens_eq_ok_iff      a list is converted exactly if a run from the empty stack leaves no open
                            parenthesis;
    feeds_of_derives        a phrase of level `k` releases its postfix form, but for operators of
                            precedence `k` and more that are still waiting.

The last one is the invariant of the conversion. It needs a stack on which nothing waits that the
phrase would release (`Clear`): then whatever the phrase leaves on the stack is its own.
-/

namespace DecimalCalculator

/-! ## operators on the stack -/

namespace Pending

/-- no operator on top that binds as tightly as `k` -/
def Clear (k : Nat) : List Pending → Prop
  | .operator op :: _ => op.precedence < k
  | _ => True

theorem Clear.mono {k m : Nat} {stack : List Pending} (h : Clear k stack) (hkm : k ≤ m) :
    Clear m stack := by
  match stack, h with
  | [], _ => trivial
  | .opening :: _, _ => trivial
  | .operator op :: _, h => exact Nat.lt_of_lt_of_le h hkm

theorem release_of_clear {p : Nat} {stack : List Pending} (h : Clear p stack) :
    release p stack = ([], stack) := by
  match stack, h with
  | [], _ => rfl
  | .opening :: below, _ => exact release_opening p below
  | .operator op :: below, h => exact release_of_lt h below

/-- what is released binds tightly enough, and what is left on top does not -/
theorem release_eq_iff {p : Nat} {stack rest : List Pending} {ops : List Operator} :
    release p stack = (ops, rest) ↔
      stack = ops.map .operator ++ rest ∧ (∀ op ∈ ops, p ≤ op.precedence) ∧ Clear p rest := by
  constructor
  · intro h
    induction stack generalizing ops with
    | nil =>
      cases h
      exact ⟨rfl, by simp, trivial⟩
    | cons top below ih =>
      cases top with
      | opening =>
        cases h
        exact ⟨rfl, by simp, trivial⟩
      | operator op =>
        by_cases hp : p ≤ op.precedence
        · rw [release_of_le hp] at h
          cases h
          obtain ⟨he, hops, hc⟩ := ih rfl
          refine ⟨?_, ?_, hc⟩
          · rw [List.map_cons, List.cons_append, ← he]
          · intro o ho
            rcases List.mem_cons.mp ho with rfl | ho
            · exact hp
            · exact hops o ho
        · have hlt : op.precedence < p := Nat.lt_of_not_le hp
          rw [release_of_lt hlt] at h
          cases h
          exact ⟨rfl, by simp, hlt⟩
  · rintro ⟨rfl, hops, hc⟩
    induction ops with
    | nil => exact release_of_clear hc
    | cons op ops ih =>
      have ih' := ih fun o ho => hops o (List.mem_cons_of_mem _ ho)
      rw [List.map_cons, List.cons_append, release_of_le (hops op List.mem_cons_self), ih']

theorem close?_eq_some_iff {stack rest : List Pending} {ops : List Operator} :
    close? stack = some (ops, rest) ↔ stack = ops.map .operator ++ .opening :: rest := by
  constructor
  · intro h
    induction stack generalizing ops with
    | nil => cases h
    | cons top below ih =>
      cases top with
      | opening =>
        cases h
        rfl
      | operator op =>
        rw [close?_operator] at h
        obtain ⟨⟨ops', rest'⟩, h', he⟩ := Option.map_eq_some_iff.mp h
        cases he
        rw [ih h', List.map_cons, List.cons_append]
  · rintro rfl
    induction ops with
    | nil => rfl
    | cons op ops ih => rw [List.map_cons, List.cons_append, close?_operator, ih, Option.map_some]

theorem drain?_eq_some_iff {stack : List Pending} {ops : List Operator} :
    drain? stack = some ops ↔ stack = ops.map .operator := by
  constructor
  · intro h
    induction stack generalizing ops with
    | nil =>
      cases h
      rfl
    | cons top below ih =>
      cases top with
      | opening => cases h
      | operator op =>
        rw [drain?_operator] at h
        obtain ⟨ops', h', rfl⟩ := Option.map_eq_some_iff.mp h
        rw [ih h', List.map_cons]
  · rintro rfl
    induction ops with
    | nil => rfl
    | cons op ops ih => rw [List.map_cons, drain?_operator, ih, Option.map_some]

/-- the parentheses that are open on a stack -/
def depth : List Pending → Nat
  | [] => 0
  | .opening :: below => depth below + 1
  | .operator _ :: below => depth below

theorem depth_map_append (ops : List Operator) (below : List Pending) :
    depth (ops.map .operator ++ below) = depth below := by
  induction ops with
  | nil => rfl
  | cons op ops ih => exact ih

theorem depth_map (ops : List Operator) : depth (ops.map .operator) = 0 := by
  rw [← List.append_nil (ops.map _), depth_map_append]
  rfl

def operator? : Pending → Option Operator
  | operator op => some op
  | opening => none

end Pending

namespace Node

/-! ## one token -/

section
variable (value? : String → Option Decimal)

/-- a token on a stack: the nodes that it releases, and the stack behind it -/
inductive Takes : List Pending → Token → List Node → List Pending → Prop
  | operand {a : Operand} {v : Decimal} (stack : List Pending) :
      a.value? value? = some v → Takes stack a.token [.number v] stack
  | operator {op : Operator} {ops : List Operator} {rest : List Pending} :
      (∀ o ∈ ops, op.precedence ≤ o.precedence) → Pending.Clear op.precedence rest →
      Takes (ops.map .operator ++ rest) (.operator op) (ops.map .operator) (.operator op :: rest)
  | opening (stack : List Pending) : Takes stack .opening [] (.opening :: stack)
  | closing (ops : List Operator) (rest : List Pending) :
      Takes (ops.map .operator ++ .opening :: rest) .closing (ops.map .operator) rest

/-- tokens on a stack: all nodes that they release, and the stack behind them -/
inductive Feeds : List Pending → List Token → List Node → List Pending → Prop
  | nil (stack : List Pending) : Feeds stack [] [] stack
  | cons {stack next last : List Pending} {t : Token} {ts : List Token} {out outs : List Node} :
      Takes value? stack t out next → Feeds next ts outs last →
      Feeds stack (t :: ts) (out ++ outs) last

end

variable {value? : String → Option Decimal}

theorem feed_operator (value? : String → Option Decimal) (stack : List Pending) (op : Operator) :
    feed value? stack (.operator op) =
      .ok ((Pending.release op.precedence stack).1.map .operator,
        .operator op :: (Pending.release op.precedence stack).2) := rfl

/-- every accepted token follows the rule of its kind, and the rules are accepted -/
theorem feed_eq_ok_iff {stack next : List Pending} {t : Token} {out : List Node} :
    feed value? stack t = .ok (out, next) ↔ Takes value? stack t out next := by
  constructor
  · intro h
    cases t with
    | number v =>
      cases h
      exact .operand stack (rfl : (Operand.number v).value? value? = some v)
    | identifier name =>
      cases hv : value? name with
      | none =>
        simp only [feed, hv] at h
        cases h
      | some v =>
        simp only [feed, hv] at h
        cases h
        exact .operand stack (show (Operand.identifier name).value? value? = some v from hv)
    | operator op =>
      cases hr : Pending.release op.precedence stack with
      | mk ops rest =>
        rw [feed_operator, hr] at h
        cases h
        obtain ⟨rfl, hops, hc⟩ := Pending.release_eq_iff.mp hr
        exact .operator hops hc
    | opening =>
      cases h
      exact .opening stack
    | closing =>
      cases hc : Pending.close? stack with
      | none =>
        simp only [feed, hc] at h
        cases h
      | some r =>
        obtain ⟨ops, rest⟩ := r
        simp only [feed, hc] at h
        cases h
        rw [Pending.close?_eq_some_iff.mp hc]
        exact .closing ops _
  · intro h
    cases h with
    | @operand a v _ hv =>
      cases a with
      | number w =>
        cases hv
        rfl
      | identifier name =>
        have hn : value? name = some v := hv
        simp only [Operand.token, feed, hn]
    | @operator op ops rest hops hc =>
      rw [feed_operator, Pending.release_eq_iff.mpr ⟨rfl, hops, hc⟩]
    | opening => rfl
    | closing ops _ =>
      simp only [feed, Pending.close?_eq_some_iff.mpr rfl]

/-! ## all tokens -/

namespace Feeds

theorem single {stack next : List Pending} {t : Token} {out : List Node}
    (h : Takes value? stack t out next) : Feeds value? stack [t] out next := by
  have hs : Feeds value? stack [t] (out ++ []) next := .cons h (.nil next)
  rwa [List.append_nil] at hs

theorem append {s1 s2 s3 : List Pending} {ts us : List Token} {out outs : List Node}
    (h1 : Feeds value? s1 ts out s2) (h2 : Feeds value? s2 us outs s3) :
    Feeds value? s1 (ts ++ us) (out ++ outs) s3 := by
  induction h1 with
  | nil _ => exact h2
  | cons ht _ ih =>
    rw [List.cons_append, List.append_assoc]
    exact .cons ht (ih h2)

/-- a run over two lists is one over the first, and behind it one over the second -/
theorem exists_of_append {s1 s3 : List Pending} {ts us : List Token} {out : List Node}
    (h : Feeds value? s1 (ts ++ us) out s3) :
    ∃ out1 s2 out2, Feeds value? s1 ts out1 s2 ∧ Feeds value? s2 us out2 s3 ∧
      out = out1 ++ out2 := by
  induction ts generalizing s1 out with
  | nil => exact ⟨[], s1, out, .nil s1, h, rfl⟩
  | cons t ts ih =>
    cases h with
    | cons ht h =>
      obtain ⟨out1, s2, out2, h1, h2, rfl⟩ := ih h
      exact ⟨_, s2, out2, .cons ht h1, h2, (List.append_assoc ..).symm⟩

end Feeds

theorem ofTokensFrom_append {stack last : List Pending} {ts : List Token} {out : List Node}
    (h : Feeds value? stack ts out last) (rest : List Token) :
    ofTokensFrom value? stack (ts ++ rest) = (ofTokensFrom value? last rest).map (out ++ ·) := by
  induction h with
  | nil stack =>
    show ofTokensFrom value? stack rest = _
    cases ofTokensFrom value? stack rest <;> rfl
  | @cons stack next last t ts out outs ht _ ih =>
    rw [List.cons_append, ofTokensFrom_cons_of_ok (feed_eq_ok_iff.mpr ht), ih]
    cases ofTokensFrom value? last rest with
    | error e => rfl
    | ok nodes =>
      show Except.ok (out ++ (outs ++ nodes)) = Except.ok (out ++ outs ++ nodes)
      rw [List.append_assoc]

theorem finish_eq_ok_iff {stack : List Pending} {nodes : List Node} :
    finish stack = .ok nodes ↔
      ∃ ops : List Operator, stack = ops.map .operator ∧ nodes = ops.map .operator := by
  unfold finish
  constructor
  · intro h
    cases hd : Pending.drain? stack with
    | none =>
      rw [hd] at h
      cases h
    | some ops =>
      rw [hd] at h
      cases h
      exact ⟨ops, Pending.drain?_eq_some_iff.mp hd, rfl⟩
  · rintro ⟨ops, hs, rfl⟩
    rw [Pending.drain?_eq_some_iff.mpr hs]

theorem ofTokensFrom_eq_ok_iff {stack : List Pending} {ts : List Token} {nodes : List Node} :
    ofTokensFrom value? stack ts = .ok nodes ↔
      ∃ (out : List Node) (ops : List Operator), Feeds value? stack ts out (ops.map .operator) ∧
        nodes = out ++ ops.map .operator := by
  constructor
  · intro h
    induction ts generalizing stack nodes with
    | nil =>
      rw [ofTokensFrom_nil] at h
      obtain ⟨ops, rfl, rfl⟩ := finish_eq_ok_iff.mp h
      exact ⟨[], ops, .nil _, rfl⟩
    | cons t ts ih =>
      cases hf : feed value? stack t with
      | error e =>
        rw [ofTokensFrom_cons_of_error hf] at h
        cases h
      | ok r =>
        obtain ⟨out, next⟩ := r
        rw [ofTokensFrom_cons_of_ok hf] at h
        obtain ⟨more, hr, rfl⟩ := map_eq_ok_iff.mp h
        obtain ⟨outs, ops, hfeeds, rfl⟩ := ih hr
        refine ⟨out ++ outs, ops, .cons (feed_eq_ok_iff.mp hf) hfeeds, ?_⟩
        exact (List.append_assoc ..).symm
  · rintro ⟨out, ops, hf, rfl⟩
    have h := ofTokensFrom_append hf []
    rw [List.append_nil, ofTokensFrom_nil, finish_eq_ok_iff.mpr ⟨ops, rfl, rfl⟩] at h
    exact h

theorem ofTokens_eq_ok_iff {ts : List Token} {nodes : List Node} :
    ofTokens value? ts = .ok nodes ↔
      ∃ (out : List Node) (ops : List Operator), Feeds value? [] ts out (ops.map .operator) ∧
        nodes = out ++ ops.map .operator := ofTokensFrom_eq_ok_iff

/-! ## phrases -/

/-- A phrase on a stack that is clear for its level releases its postfix form up to some operators,
which are on the stack behind it and bind at least as tightly as the level says. -/
theorem feeds_of_derives {k : Nat} {ts : List Token} {e : Expr Operand} {t : Expr Decimal}
    (h : Derives k ts e) (ht : e.resolve value? = some t) {stack : List Pending}
    (hs : Pending.Clear k stack) :
    ∃ (out : List Node) (ops : List Operator),
      Feeds value? stack ts out (ops.map .operator ++ stack) ∧
      out ++ ops.map .operator = t.postorder ∧ ∀ op ∈ ops, k ≤ op.precedence := by
  induction h using Derives.rec_levels generalizing t stack with
  | operand a =>
    obtain ⟨v, hv, rfl⟩ := Option.map_eq_some_iff.mp ht
    exact ⟨[.number v], [], .single (.operand stack hv), rfl, by simp⟩
  | group _ ih =>
    have hc : Pending.Clear 1 (.opening :: stack) := trivial
    obtain ⟨out, ops, hf, ho, _⟩ := ih ht hc
    have hfeeds := (Feeds.single (.opening stack)).append
      (hf.append (.single (.closing ops stack)))
    exact ⟨_, [], hfeeds, by simpa using ho, by simp⟩
  | lift _ _ _ ih =>
    obtain ⟨out, ops, hf, ho, hp⟩ := ih ht (hs.mono (Nat.le_succ _))
    exact ⟨out, ops, hf, ho, fun op hop => Nat.le_of_succ_le (hp op hop)⟩
  | @binary op ls rs l r _ _ ihl ihr =>
    obtain ⟨l', r', hl, hr, rfl⟩ := Expr.resolve_binary_eq_some ht
    obtain ⟨outl, opsl, hfl, hol, hpl⟩ := ihl hl hs
    -- the operator releases what is left of its left operand, and nothing below that
    have hop : Takes value? (opsl.map .operator ++ stack) (.operator op) (opsl.map .operator)
        (.operator op :: stack) := .operator hpl hs
    have hc : Pending.Clear (op.precedence + 1) (.operator op :: stack) :=
      Nat.lt_succ_self op.precedence
    obtain ⟨outr, opsr, hfr, hor, hpr⟩ := ihr hr hc
    refine ⟨outl ++ (opsl.map .operator ++ outr), opsr ++ [op], ?_, ?_, ?_⟩
    · have hf := hfl.append (.cons hop hfr)
      rwa [List.map_append, List.append_assoc]
    · rw [Expr.postorder_binary, ← hol, ← hor, List.map_append]
      simp
    · intro o ho
      rcases List.mem_append.mp ho with ho | ho
      · exact Nat.le_of_succ_le (hpr o ho)
      · rw [List.mem_singleton.mp ho]

/-- a whole expression is converted to the postfix form of its tree -/
theorem ofTokens_of_derives {ts : List Token} {e : Expr Operand} {t : Expr Decimal}
    (h : Derives 1 ts e) (ht : e.resolve value? = some t) :
    ofTokens value? ts = .ok t.postorder := by
  have hc : Pending.Clear 1 [] := trivial
  obtain ⟨out, ops, hf, ho, _⟩ := feeds_of_derives h ht hc
  rw [List.append_nil] at hf
  exact ofTokens_eq_ok_iff.mpr ⟨out, ops, hf, ho.symm⟩

/-! ## what goes in comes out -/

def number? : Node → Option Decimal
  | number v => some v
  | operator _ => none

def operator? : Node → Option Operator
  | number _ => none
  | operator op => some op

/-- the numbers of a list of nodes, in order -/
def numbers (nodes : List Node) : List Decimal := nodes.filterMap number?

/-- the operators of a list of nodes, in order -/
def operators (nodes : List Node) : List Operator := nodes.filterMap operator?

theorem numbers_append (a b : List Node) : numbers (a ++ b) = numbers a ++ numbers b :=
  List.filterMap_append
theorem operators_append (a b : List Node) : operators (a ++ b) = operators a ++ operators b :=
  List.filterMap_append

theorem numbers_map_operator (ops : List Operator) : numbers (ops.map .operator) = [] := by
  induction ops with
  | nil => rfl
  | cons op ops ih => exact ih

theorem operators_map_operator (ops : List Operator) : operators (ops.map .operator) = ops := by
  induction ops with
  | nil => rfl
  | cons op ops ih => exact congrArg (op :: ·) ih

end Node

theorem Pending.filterMap_operator?_append (ops : List Operator) (below : List Pending) :
    (ops.map Pending.operator ++ below).filterMap Pending.operator? =
      ops ++ below.filterMap Pending.operator? := by
  induction ops with
  | nil => rfl
  | cons op ops ih => exact congrArg (op :: ·) ih

namespace Node

variable {value? : String → Option Decimal}

/-- the numbers that come out are the values of the operands that go in, in their order -/
theorem numbers_of_feeds {stack last : List Pending} {ts : List Token} {out : List Node}
    (h : Feeds value? stack ts out last) :
    (numbers out).map some = (Token.operands ts).map (Operand.value? value?) := by
  induction h with
  | nil _ => rfl
  | cons ht _ ih =>
    rw [numbers_append, List.map_append, ih]
    cases ht with
    | operand _ hv =>
      rw [Token.operands_token, List.map_cons, hv]
      rfl
    | operator _ _ =>
      rw [numbers_map_operator]
      rfl
    | opening _ => rfl
    | closing _ _ =>
      rw [numbers_map_operator]
      rfl

/-- an operator that goes in comes out or waits, and no other does -/
theorem operators_of_feeds {stack last : List Pending} {ts : List Token} {out : List Node}
    (h : Feeds value? stack ts out last) :
    (operators out ++ last.filterMap Pending.operator?).Perm
      (Token.operators ts ++ stack.filterMap Pending.operator?) := by
  induction h with
  | nil _ => exact .refl _
  | @cons stack next last t ts out outs ht _ ih =>
    rw [operators_append, List.append_assoc]
    refine (ih.append_left (operators out)).trans ?_
    cases ht with
    | operand _ _ =>
      rw [Token.operators_token]
      exact .refl _
    | @operator op ops rest _ _ =>
      rw [operators_map_operator, Token.operators_operator, Pending.filterMap_operator?_append]
      refine List.perm_iff_count.mpr fun o => ?_
      simp only [List.filterMap_cons, Pending.operator?, List.count_append, List.count_cons]
      omega
    | opening _ => exact .refl _
    | closing ops rest =>
      rw [operators_map_operator, Token.operators_closing, Pending.filterMap_operator?_append]
      refine List.perm_iff_count.mpr fun o => ?_
      simp only [List.filterMap_cons, Pending.operator?, List.count_append]
      omega

/-- the open parentheses of the tokens are those of the stack -/
theorem depth?_of_feeds {stack last : List Pending} {ts : List Token} {out : List Node}
    (h : Feeds value? stack ts out last) :
    Token.depth? (Pending.depth stack) ts = some (Pending.depth last) := by
  induction h with
  | nil stack => exact Token.depth?_nil _
  | cons ht _ ih =>
    cases ht with
    | operand _ _ => rw [Token.depth?_token, ih]
    | operator _ _ =>
      rw [Token.depth?_operator, Pending.depth_map_append]
      exact ih
    | opening _ =>
      rw [Token.depth?_opening]
      exact ih
    | closing ops rest =>
      rw [Pending.depth_map_append]
      exact ih

/-- a list that is converted has matching parentheses -/
theorem depth?_of_ofTokens {ts : List Token} {nodes : List Node}
    (h : ofTokens value? ts = .ok nodes) : Token.depth? 0 ts = some 0 := by
  obtain ⟨out, ops, hf, _⟩ := ofTokens_eq_ok_iff.mp h
  have hd := depth?_of_feeds hf
  rwa [Pending.depth_map] at hd

theorem numbers_of_ofTokens {ts : List Token} {nodes : List Node}
    (h : ofTokens value? ts = .ok nodes) :
    (numbers nodes).map some = (Token.operands ts).map (Operand.value? value?) := by
  obtain ⟨out, ops, hf, rfl⟩ := ofTokens_eq_ok_iff.mp h
  rw [numbers_append, numbers_map_operator, List.append_nil, numbers_of_feeds hf]

theorem operators_of_ofTokens {ts : List Token} {nodes : List Node}
    (h : ofTokens value? ts = .ok nodes) : (operators nodes).Perm (Token.operators ts) := by
  obtain ⟨out, ops, hf, rfl⟩ := ofTokens_eq_ok_iff.mp h
  have hp := operators_of_feeds hf
  have hl := Pending.filterMap_operator?_append ops []
  rw [List.append_nil] at hl
  rw [hl] at hp
  rw [operators_append, operators_map_operator]
  simpa using hp

theorem length_numbers_of_ofTokens {ts : List Token} {nodes : List Node}
    (h : ofTokens value? ts = .ok nodes) :
    (numbers nodes).length = (Token.operands ts).length := by
  simpa using congrArg List.length (numbers_of_ofTokens h)

theorem length_operators_of_ofTokens {ts : List Token} {nodes : List Node}
    (h : ofTokens value? ts = .ok nodes) :
    (operators nodes).length = (Token.operators ts).length := (operators_of_ofTokens h).length_eq

end Node

end DecimalCalculator
