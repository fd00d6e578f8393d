import Mathlib
import DecimalCalculator.Calculator
import DecimalCalculator.Proofs.Acceptance

/-!
# The order of operators on the stack

A yard holds what came out of a conversion so far, and a stack that has room for every operator and
every parenthesis (`Mark`), also for a `)`. Its calls are those of a conversion: what is popped is
decided by rank, one mark after the other. A `)` never gets onto the stack, so the calls do what
`Node.feed` does with a stack of `Pending` (`take_ofPending`), and converting is the same
(`convert_eq`).

* `Yard.Reachable y`          `y` is what some calls make of the empty yard;
* `Pending.InOrder st`        an operator binds tighter than an operator right below it;
* `inOrder_of_feeds`          every token keeps the stack in order;
* `exists_feeds_of_inOrder`   and every stack in order is left behind by some tokens.
-/

namespace DecimalCalculator

/-! ## the yard -/

/-- what may stand on the stack of a yard -/
inductive Mark where
  | operator (op : Operator)
  | opening
  | closing
  deriving DecidableEq

namespace Mark

/-- a `)` ranks lowest and a `(` highest -/
def precedence : Mark → Nat
  | .closing => 0
  | .operator op => op.precedence
  | .opening => 4

def operator? : Mark → Option Operator
  | .operator op => some op
  | _ => none

/-- the operator of a mark that ranks as high as `p`; a parenthesis has none, whatever its rank -/
def popped? (p : Nat) (m : Mark) : Option Operator :=
  if p ≤ m.precedence then m.operator? else none

end Mark

/-- what came out, and the stack, its top in front -/
structure Yard where
  expression : List Node
  stack : List Mark

namespace Yard

def empty : Yard := ⟨[], []⟩

def addNumber (y : Yard) (v : Decimal) : Yard := ⟨y.expression ++ [.number v], y.stack⟩

/-- the yard behind popping operators that bind at least as tightly as `p` -/
def popAll (p : Nat) (expression : List Node) : List Mark → Yard
  | [] => ⟨expression, []⟩
  | top :: below =>
    match top.popped? p with
    | some op => popAll p (expression ++ [.operator op]) below
    | none => ⟨expression, top :: below⟩

def addOperator (y : Yard) (op : Operator) : Yard :=
  let popped := popAll (Mark.operator op).precedence y.expression y.stack
  ⟨popped.expression, .operator op :: popped.stack⟩

def addOpening (y : Yard) : Yard := ⟨y.expression, .opening :: y.stack⟩

/-- pops down to the next `(`, or to a `)`, which ends it as `broken` says -/
def popParen (broken : Except Rejection Yard) (expression : List Node) :
    List Mark → Except Rejection Yard
  | [] => .error (.invalidExpression .unopened)
  | .opening :: below => .ok ⟨expression, below⟩
  | .operator op :: below => popParen broken (expression ++ [.operator op]) below
  | .closing :: _ => broken

def addClosing (y : Yard) : Except Rejection Yard :=
  popParen (.error (.invalidExpression .unopened)) y.expression y.stack

/-- pops the whole stack; any parenthesis on it is refused -/
def popRest (expression : List Node) : List Mark → Except Rejection (List Node)
  | [] => .ok expression
  | .operator op :: below => popRest (expression ++ [.operator op]) below
  | .opening :: _ => .error (.invalidExpression .unclosed)
  | .closing :: _ => .error (.invalidExpression .unclosed)

def finish (y : Yard) : Except Rejection (List Node) := popRest y.expression y.stack

/-- the call that a token makes -/
def take (value? : String → Option Decimal) (y : Yard) : Token → Except Rejection Yard
  | .number v => .ok (y.addNumber v)
  | .identifier name =>
    match value? name with
    | some v => .ok (y.addNumber v)
    | none => .error (.unknownVariable name)
  | .operator op => .ok (y.addOperator op)
  | .opening => .ok y.addOpening
  | .closing => y.addClosing

/-- the calls of all tokens, and what is left at the end -/
def convert (value? : String → Option Decimal) (tokens : List Token) :
    Except Rejection (List Node) := tokens.foldlM (take value?) empty >>= finish

/-- the yards that calls lead to, as long as none is refused -/
inductive Reachable : Yard → Prop
  | empty : Reachable empty
  | number {y : Yard} (v : Decimal) : Reachable y → Reachable (y.addNumber v)
  | operator {y : Yard} (op : Operator) : Reachable y → Reachable (y.addOperator op)
  | opening {y : Yard} : Reachable y → Reachable y.addOpening
  | closing {y z : Yard} : Reachable y → y.addClosing = .ok z → Reachable z

end Yard

/-! ## a yard does what the conversion does -/

/-- what waits on the stack, as a mark -/
def Pending.mark : Pending → Mark
  | .operator op => .operator op
  | .opening => .opening

theorem Pending.mark_injective : Function.Injective Pending.mark := by
  intro a b h
  cases a <;> cases b <;> cases h <;> rfl

theorem Pending.map_mark_map_operator (ops : List Operator) :
    (ops.map Pending.operator).map Pending.mark = ops.map Mark.operator := by
  rw [List.map_map]
  rfl

theorem Pending.closing_not_mem_map_mark (st : List Pending) : .closing ∉ st.map Pending.mark := by
  intro h
  obtain ⟨p, -, hp⟩ := List.mem_map.mp h
  cases p <;> cases hp

theorem Pending.exists_map_mark {stack : List Mark} (h : .closing ∉ stack) :
    ∃ st : List Pending, stack = st.map Pending.mark := by
  induction stack with
  | nil => exact ⟨[], rfl⟩
  | cons m stack ih =>
    obtain ⟨st, rfl⟩ := ih fun hm => h (List.mem_cons_of_mem m hm)
    cases m with
    | operator op => exact ⟨.operator op :: st, rfl⟩
    | opening => exact ⟨.opening :: st, rfl⟩
    | closing => exact absurd List.mem_cons_self h

namespace Yard

open Pending (mark)

/-- a yard without a `)` on its stack -/
def ofPending (expression : List Node) (st : List Pending) : Yard := ⟨expression, st.map mark⟩

theorem popAll_map_mark (p : Nat) (out : List Node) (st : List Pending) :
    popAll p out (st.map mark) =
      ofPending (out ++ (Pending.release p st).1.map .operator) (Pending.release p st).2 := by
  induction st generalizing out with
  | nil => simp [popAll, ofPending, Pending.release_nil]
  | cons top below ih =>
    cases top with
    | opening =>
      have hpopped : Mark.popped? p .opening = none := ite_self _
      simp [popAll, ofPending, mark, hpopped, Pending.release_opening]
    | operator op =>
      by_cases hp : p ≤ op.precedence
      · have hpopped : Mark.popped? p (.operator op) = some op := if_pos hp
        rw [Pending.release_of_le hp]
        simp [popAll, mark, hpopped, ih]
      · have hpopped : Mark.popped? p (.operator op) = none := if_neg hp
        rw [Pending.release_of_lt (Nat.lt_of_not_le hp)]
        simp [popAll, ofPending, mark, hpopped]

theorem popParen_map_mark (broken : Except Rejection Yard) (out : List Node) (st : List Pending) :
    popParen broken out (st.map mark) =
      match Pending.close? st with
      | some (ops, rest) => .ok (ofPending (out ++ ops.map .operator) rest)
      | none => .error (.invalidExpression .unopened) := by
  induction st generalizing out with
  | nil => rfl
  | cons top below ih =>
    cases top with
    | opening => simp [popParen, mark, ofPending, Pending.close?_opening]
    | operator op =>
      rw [Pending.close?_operator]
      show popParen broken (out ++ [.operator op]) (below.map mark) = _
      rw [ih]
      cases Pending.close? below with
      | none => rfl
      | some r => simp

theorem popRest_map_mark (out : List Node) (st : List Pending) :
    popRest out (st.map mark) = (Node.finish st).map (out ++ ·) := by
  unfold Node.finish
  induction st generalizing out with
  | nil => simp [popRest, Pending.drain?_nil, Except.map]
  | cons top below ih =>
    cases top with
    | opening => rfl
    | operator op =>
      rw [Pending.drain?_operator]
      show popRest (out ++ [.operator op]) (below.map mark) = _
      rw [ih]
      cases Pending.drain? below with
      | none => rfl
      | some ops => simp [Except.map]

/-- **One call.** It releases the nodes that a conversion releases, and leaves its stack. -/
theorem take_ofPending (value? : String → Option Decimal) (out : List Node) (st : List Pending)
    (t : Token) :
    (ofPending out st).take value? t =
      (Node.feed value? st t).map fun r => ofPending (out ++ r.1) r.2 := by
  cases t with
  | number v => rfl
  | identifier name =>
    cases hv : value? name with
    | none => simp only [take, Node.feed, hv, Except.map]
    | some v => simp only [take, Node.feed, hv, Except.map, ofPending, addNumber]
  | operator op =>
    show Except.ok ((ofPending out st).addOperator op) = _
    unfold addOperator
    rw [Node.feed_operator]
    simp [ofPending, popAll_map_mark, Mark.precedence, Except.map, mark]
  | opening => simp [take, addOpening, ofPending, mark, Node.feed, Except.map]
  | closing =>
    show (ofPending out st).addClosing = _
    unfold addClosing Node.feed
    rw [ofPending, popParen_map_mark]
    cases Pending.close? st with
    | none => rfl
    | some r => rfl

theorem foldlM_take_ofPending (value? : String → Option Decimal) (out : List Node)
    (st : List Pending) (ts : List Token) :
    (ts.foldlM (take value?) (ofPending out st) >>= finish) =
      (Node.ofTokensFrom value? st ts).map (out ++ ·) := by
  induction ts generalizing out st with
  | nil => exact popRest_map_mark out st
  | cons t ts ih =>
    rw [List.foldlM_cons, take_ofPending]
    cases hf : Node.feed value? st t with
    | error e =>
      rw [Node.ofTokensFrom_cons_of_error hf]
      rfl
    | ok r =>
      rw [Node.ofTokensFrom_cons_of_ok hf]
      refine (ih (out ++ r.1) r.2).trans ?_
      cases Node.ofTokensFrom value? r.2 ts with
      | error e => rfl
      | ok nodes => simp [Except.map]

/-- all calls together convert a list of tokens -/
theorem convert_eq (value? : String → Option Decimal) (ts : List Token) :
    convert value? ts = Node.ofTokens value? ts := by
  refine (foldlM_take_ofPending value? [] [] ts).trans ?_
  show (Node.ofTokens value? ts).map ([] ++ ·) = _
  cases Node.ofTokens value? ts with
  | error e => rfl
  | ok nodes => rfl

/-! ## the yards that calls lead to -/

/-- a call from a yard that tokens lead to is that of one more token -/
theorem exists_feeds_concat {value? : String → Option Decimal} {ts : List Token} {out : List Node}
    {st : List Pending} {t : Token} {z : Yard} (hfeeds : Node.Feeds value? [] ts out st)
    (hz : (ofPending out st).take value? t = .ok z) :
    ∃ ts out st, Node.Feeds value? [] ts out st ∧ z = ofPending out st := by
  rw [take_ofPending] at hz
  obtain ⟨r, hr, rfl⟩ := map_eq_ok_iff.mp hz
  exact ⟨_, _, _, hfeeds.append (.single (Node.feed_eq_ok_iff.mp hr)), rfl⟩

theorem Reachable.exists_feeds {y : Yard} (h : Reachable y) (value? : String → Option Decimal) :
    ∃ ts out st, Node.Feeds value? [] ts out st ∧ y = ofPending out st := by
  induction h with
  | empty => exact ⟨[], [], [], .nil [], rfl⟩
  | number v _ ih =>
    obtain ⟨ts, out, st, hfeeds, rfl⟩ := ih
    exact exists_feeds_concat hfeeds (t := .number v) rfl
  | operator op _ ih =>
    obtain ⟨ts, out, st, hfeeds, rfl⟩ := ih
    exact exists_feeds_concat hfeeds (t := .operator op) rfl
  | opening _ ih =>
    obtain ⟨ts, out, st, hfeeds, rfl⟩ := ih
    exact exists_feeds_concat hfeeds (t := .opening) rfl
  | closing _ hz ih =>
    obtain ⟨ts, out, st, hfeeds, rfl⟩ := ih
    exact exists_feeds_concat hfeeds (t := .closing) hz

theorem Reachable.take {value? : String → Option Decimal} {y z : Yard} {t : Token}
    (h : Reachable y) (hz : y.take value? t = .ok z) : Reachable z := by
  cases t with
  | number v =>
    cases hz
    exact h.number v
  | identifier name =>
    cases hv : value? name with
    | none =>
      simp only [Yard.take, hv] at hz
      cases hz
    | some v =>
      simp only [Yard.take, hv] at hz
      cases hz
      exact h.number v
  | operator op =>
    cases hz
    exact h.operator op
  | opening =>
    cases hz
    exact h.opening
  | closing => exact h.closing hz

theorem Reachable.of_feeds {value? : String → Option Decimal} {ts : List Token}
    {front out : List Node} {st last : List Pending} (h : Reachable (ofPending front st))
    (hfeeds : Node.Feeds value? st ts out last) : Reachable (ofPending (front ++ out) last) := by
  induction hfeeds generalizing front with
  | nil st => rwa [List.append_nil]
  | @cons st next last t ts out outs ht _ ih =>
    have hz : (ofPending front st).take value? t = .ok (ofPending (front ++ out) next) := by
      rw [take_ofPending, Node.feed_eq_ok_iff.mpr ht]
      rfl
    rw [← List.append_assoc]
    exact ih (h.take hz)

/-- what calls lead to is what tokens leave behind -/
theorem reachable_iff (value? : String → Option Decimal) {y : Yard} :
    Reachable y ↔ ∃ ts out st, Node.Feeds value? [] ts out st ∧ y = ofPending out st := by
  constructor
  · exact fun h => h.exists_feeds value?
  · rintro ⟨ts, out, st, hfeeds, rfl⟩
    have hempty : Reachable (ofPending [] []) := .empty
    exact hempty.of_feeds hfeeds

end Yard

/-! ## operators in order -/

/-- operators that stand upon each other, the one on top in front: they bind strictly tighter from
the bottom to the top -/
def Tightening (ops : List Operator) : Prop :=
  ops.Pairwise fun upper lower => lower.precedence < upper.precedence

/-- there are no more of them than the precedence of the one on top says -/
theorem Tightening.length_cons_le {op : Operator} {ops : List Operator}
    (h : Tightening (op :: ops)) : (op :: ops).length ≤ op.precedence := by
  induction ops generalizing op with
  | nil => exact op.one_le_precedence
  | cons p ops ih =>
    have hlt : p.precedence < op.precedence := List.rel_of_pairwise_cons h List.mem_cons_self
    have hle := ih h.of_cons
    rw [List.length_cons]
    omega

theorem Tightening.length_le_three {ops : List Operator} (h : Tightening ops) :
    ops.length ≤ 3 := by
  cases ops with
  | nil => exact Nat.zero_le 3
  | cons op ops => exact h.length_cons_le.trans op.precedence_le_three

namespace Pending

/-- an operator binds tighter than an operator right below it -/
def Above (upper lower : Pending) : Prop :=
  ∀ o p, upper = .operator o → lower = .operator p → p.precedence < o.precedence

def InOrder (st : List Pending) : Prop := st.IsChain Above

theorem inOrder_opening_cons {st : List Pending} : InOrder (.opening :: st) ↔ InOrder st := by
  refine ⟨List.IsChain.tail, fun h => List.isChain_cons.mpr ⟨fun _ _ _ _ ho => ?_, h⟩⟩
  cases ho

theorem inOrder_operator_cons {op : Operator} {st : List Pending} :
    InOrder (.operator op :: st) ↔ Clear op.precedence st ∧ InOrder st := by
  refine List.isChain_cons.trans (and_congr_left fun _ => ?_)
  match st with
  | [] => exact iff_of_true (fun _ h => by cases h) trivial
  | .opening :: _ =>
    refine iff_of_true (fun _ hy _ _ _ hp => ?_) trivial
    cases hy
    cases hp
  | .operator p :: _ =>
    constructor
    · exact fun h => h _ rfl op p rfl rfl
    · rintro h _ hy _ _ ho hp
      cases hy
      cases ho
      cases hp
      exact h

theorem InOrder.of_append {a b : List Pending} (h : InOrder (a ++ b)) : InOrder b :=
  h.suffix (List.suffix_append a b)

theorem InOrder.tightening {ops : List Operator} (h : InOrder (ops.map .operator)) :
    Tightening ops := by
  have hchain : (ops.map Operator.precedence).IsChain (· > ·) := by
    rw [InOrder, List.isChain_map] at h
    exact (List.isChain_map _).mpr (h.imp fun o p hop => hop o p rfl rfl)
  exact List.pairwise_map.mp (List.isChain_iff_pairwise.mp hchain)

theorem inOrder_iff {st : List Pending} :
    InOrder st ↔ ∀ ops : List Operator, ops.map Pending.operator <:+: st → Tightening ops := by
  refine ⟨fun h ops hops => InOrder.tightening <| List.IsChain.infix h hops, fun h => ?_⟩
  induction st with
  | nil => exact .nil
  | cons top below ih =>
    have hbelow := ih fun ops hops => h ops (List.infix_cons hops)
    cases top with
    | opening => exact inOrder_opening_cons.mpr hbelow
    | operator op =>
      refine inOrder_operator_cons.mpr ⟨?_, hbelow⟩
      match below with
      | [] => trivial
      | .opening :: _ => trivial
      | .operator p :: rest =>
        have hpair := h [op, p] (List.prefix_append [operator op, operator p] rest).isInfix
        exact List.rel_of_pairwise_cons hpair List.mem_cons_self

end Pending

namespace Node

variable {value? : String → Option Decimal}

/-- an operator is put onto what is left when all that bind as tightly have gone -/
theorem Takes.inOrder {st next : List Pending} {t : Token} {out : List Node}
    (h : Takes value? st t out next) (hst : Pending.InOrder st) : Pending.InOrder next := by
  cases h with
  | operand _ _ => exact hst
  | operator _ hclear => exact Pending.inOrder_operator_cons.mpr ⟨hclear, hst.of_append⟩
  | opening _ => exact Pending.inOrder_opening_cons.mpr hst
  | closing _ _ => exact Pending.inOrder_opening_cons.mp hst.of_append

theorem inOrder_of_feeds {st last : List Pending} {ts : List Token} {out : List Node}
    (h : Feeds value? st ts out last) (hst : Pending.InOrder st) : Pending.InOrder last := by
  induction h with
  | nil _ => exact hst
  | cons ht _ ih => exact ih (ht.inOrder hst)

/-- written from the bottom to the top, its marks leave a stack in order as it is -/
theorem exists_feeds_of_inOrder {st : List Pending} (h : Pending.InOrder st) :
    ∃ ts, Feeds value? [] ts [] st := by
  induction st with
  | nil => exact ⟨[], .nil []⟩
  | cons top below ih =>
    cases top with
    | opening =>
      obtain ⟨ts, hfeeds⟩ := ih (Pending.inOrder_opening_cons.mp h)
      exact ⟨_, hfeeds.append (.single (.opening below))⟩
    | operator op =>
      obtain ⟨hclear, hbelow⟩ := Pending.inOrder_operator_cons.mp h
      obtain ⟨ts, hfeeds⟩ := ih hbelow
      have htakes : Takes value? below (.operator op) [] (.operator op :: below) :=
        @Takes.operator value? op [] below (fun _ ho => by cases ho) hclear
      exact ⟨_, hfeeds.append (.single htakes)⟩

end Node

/-! ## the stack of a yard -/

namespace Yard

open Pending (mark)

theorem map_operator_infix_iff {ops : List Operator} {st : List Pending} :
    ops.map Mark.operator <:+: st.map mark ↔ ops.map Pending.operator <:+: st := by
  rw [← Pending.map_mark_map_operator]
  constructor
  · intro h
    obtain ⟨l, hl, he⟩ := List.infix_map_iff.mp h
    rwa [List.map_injective_iff.mpr Pending.mark_injective he]
  · exact fun h => h.map mark

theorem exists_inOrder_iff {stack : List Mark} :
    (∃ st : List Pending, Pending.InOrder st ∧ stack = st.map mark) ↔
      .closing ∉ stack ∧ ∀ ops : List Operator, ops.map .operator <:+: stack → Tightening ops := by
  constructor
  · rintro ⟨st, hst, rfl⟩
    refine ⟨Pending.closing_not_mem_map_mark st, fun ops hops => ?_⟩
    exact Pending.inOrder_iff.mp hst ops (map_operator_infix_iff.mp hops)
  · rintro ⟨hclosing, hops⟩
    obtain ⟨st, rfl⟩ := Pending.exists_map_mark hclosing
    refine ⟨st, Pending.inOrder_iff.mpr fun ops h => ?_, rfl⟩
    exact hops ops (map_operator_infix_iff.mpr h)

/-- the stacks that calls lead to, and no others -/
theorem exists_reachable_iff {stack : List Mark} :
    (∃ expression, Reachable ⟨expression, stack⟩) ↔
      ∃ st : List Pending, Pending.InOrder st ∧ stack = st.map mark := by
  constructor
  · rintro ⟨expression, h⟩
    obtain ⟨ts, out, st, hfeeds, hy⟩ := (reachable_iff fun _ => none).mp h
    cases hy
    exact ⟨st, Node.inOrder_of_feeds hfeeds .nil, rfl⟩
  · rintro ⟨st, hst, rfl⟩
    obtain ⟨ts, hfeeds⟩ := Node.exists_feeds_of_inOrder hst
    exact ⟨[], (reachable_iff fun _ => none).mpr ⟨ts, [], st, hfeeds, rfl⟩⟩

theorem finish_eq_error_iff {out : List Node} {st : List Pending} {e : Rejection} :
    (ofPending out st).finish = .error e ↔
      .opening ∈ st.map mark ∧ e = .invalidExpression .unclosed := by
  have hdepth : 0 < Pending.depth st ↔ .opening ∈ st.map mark := by
    induction st with
    | nil => simp [Pending.depth]
    | cons top below ih => cases top <;> simp [Pending.depth, mark, ih]
  show popRest out (st.map mark) = _ ↔ _
  rw [popRest_map_mark, map_eq_error_iff, Node.finish_eq_error_iff, hdepth]

/-- **The stack of a yard.** Calls lead to exactly the stacks that hold no `)` and on which
operators that stand upon each other, with no parenthesis between them, bind strictly tighter from
the bottom to the top. So at most three do, what is done about a `)` on the stack has no effect on
any call, and nothing but a `(` that is left keeps a yard from being finished. Such a yard converts
tokens as the calculator does. -/
theorem stack_in_order :
    (∀ stack : List Mark, (∃ expression, Reachable ⟨expression, stack⟩) ↔
      .closing ∉ stack ∧
        ∀ ops : List Operator, ops.map .operator <:+: stack → Tightening ops) ∧
    (∀ y : Yard, Reachable y →
      (∀ ops : List Operator, ops.map .operator <:+: y.stack → ops.length ≤ 3) ∧
      (∀ broken, popParen broken y.expression y.stack = y.addClosing) ∧
      ∀ e, y.finish = .error e ↔ .opening ∈ y.stack ∧ e = .invalidExpression .unclosed) ∧
    ∀ value? ts, convert value? ts = (nodeStage value? ts).outcome := by
  refine ⟨fun stack => exists_reachable_iff.trans exists_inOrder_iff, fun y hy => ?_,
    fun value? ts => ?_⟩
  · obtain ⟨ts, out, st, hfeeds, rfl⟩ := hy.exists_feeds fun _ => none
    have hst : Pending.InOrder st := Node.inOrder_of_feeds hfeeds .nil
    refine ⟨fun ops hops => ?_, fun broken => ?_, fun e => finish_eq_error_iff⟩
    · have htightening := Pending.inOrder_iff.mp hst ops (map_operator_infix_iff.mp hops)
      exact htightening.length_le_three
    · unfold addClosing
      rw [ofPending, popParen_map_mark, popParen_map_mark]
  · rw [convert_eq, outcome_nodeStage]

/-- behind `1 - ( 2 * 3 ^` -/
theorem stack_in_order_open_group :
    Reachable ⟨[.number ⟨1, 0⟩, .number ⟨2, 0⟩, .number ⟨3, 0⟩],
      [.operator .pow, .operator .mul, .opening, .operator .sub]⟩ ∧
    finish ⟨[.number ⟨1, 0⟩, .number ⟨2, 0⟩, .number ⟨3, 0⟩],
      [.operator .pow, .operator .mul, .opening, .operator .sub]⟩ =
        .error (.invalidExpression .unclosed) := by
  have h : Reachable ⟨[.number ⟨1, 0⟩, .number ⟨2, 0⟩, .number ⟨3, 0⟩],
      [.operator .pow, .operator .mul, .opening, .operator .sub]⟩ :=
    (((((Reachable.empty.number ⟨1, 0⟩).operator .sub).opening.number ⟨2, 0⟩).operator
      .mul).number ⟨3, 0⟩).operator .pow
  obtain ⟨-, -, hfinish⟩ := stack_in_order.2.1 _ h
  exact ⟨h, (hfinish _).mpr ⟨by decide, rfl⟩⟩

end Yard

end DecimalCalculator
