import DecimalCalculator.Calculator
import DecimalCalculator.Proofs.Conversion
import DecimalCalculator.Proofs.Outcome

/-!
# Which lists of tokens are converted

Only two tokens can be refused: a name without a value, and a `)` that closes nothing. Operators
are taken off the stack without ever crossing an open parenthesis, so all that matters of a stack
is how many of them it holds (`Pending.depth`), and these are the ones that are open in front of
the next token (`depth?_of_feeds`).

* `AllBound value? ts`    every name in `ts` has a value;
* `exists_feeds_iff`      tokens are let through exactly if all names are bound and no parenthesis
                          is closed that is not open, whatever the operators are;
* `Offends value? ts e`   the first offence of `ts`, and how it is refused;
* `depth?_eq_some_iff`    what counting open parentheses means for the fronts of a list.
-/

namespace DecimalCalculator

/-! ## open parentheses -/

namespace Token

def AllBound (value? : String → Option Decimal) (ts : List Token) : Prop :=
  ∀ name, identifier name ∈ ts → (value? name).isSome = true

section
variable {value? : String → Option Decimal} {ts : List Token}

theorem allBound_nil : AllBound value? [] := fun _ h => by cases h

theorem allBound_operand {a : Operand} :
    AllBound value? (a.token :: ts) ↔ (a.value? value?).isSome = true ∧ AllBound value? ts := by
  cases a with
  | number v => simp [AllBound, Operand.token, Operand.value?]
  | identifier name => simp [AllBound, Operand.token, Operand.value?, or_imp, forall_and]

theorem allBound_cons {t : Token} (h : t.operand? = none) :
    AllBound value? (t :: ts) ↔ AllBound value? ts := by
  cases t with
  | number _ => cases h
  | identifier _ => cases h
  | operator _ => simp [AllBound]
  | opening => simp [AllBound]
  | closing => simp [AllBound]

end

theorem depth?_closing_zero (ts : List Token) : depth? 0 (closing :: ts) = none := rfl
theorem depth?_closing_succ (d : Nat) (ts : List Token) :
    depth? (d + 1) (closing :: ts) = depth? d ts := rfl

/-- a condition on all fronts of a list, by its first element -/
theorem forall_prefix_cons {t : Token} {ts : List Token} {P : List Token → Prop} :
    (∀ front, front <+: t :: ts → P front) ↔ P [] ∧ ∀ front, front <+: ts → P (t :: front) := by
  constructor
  · intro h
    exact ⟨h [] List.nil_prefix, fun front hf => h (t :: front) (List.cons_prefix_cons.mpr ⟨rfl, hf⟩)⟩
  · rintro ⟨hnil, hcons⟩ front hf
    rcases List.prefix_cons_iff.mp hf with rfl | ⟨rest, rfl, hr⟩
    · exact hnil
    · exact hcons rest hr

/-- no front closes more parentheses than are open, and `k` of them are open at the end -/
theorem depth?_eq_some_iff {d k : Nat} {ts : List Token} :
    depth? d ts = some k ↔
      (∀ front, front <+: ts → front.count closing ≤ d + front.count opening) ∧
        k + ts.count closing = d + ts.count opening := by
  induction ts using rec_kinds generalizing d with
  | nil =>
    rw [depth?_nil, Option.some_inj]
    simp [eq_comm]
  | operand a ts ih =>
    rw [depth?_token, ih, forall_prefix_cons]
    cases a with
    | number v => simp [Operand.token]
    | identifier name => simp [Operand.token]
  | operator op ts ih =>
    rw [depth?_operator, ih, forall_prefix_cons]
    simp
  | opening ts ih =>
    rw [depth?_opening, ih, forall_prefix_cons]
    simp [Nat.add_assoc, Nat.add_comm 1]
  | closing ts ih =>
    cases d with
    | zero =>
      rw [depth?_closing_zero]
      refine iff_of_false (Option.some_ne_none k).symm fun h => ?_
      have hc := h.1 [closing] (List.cons_prefix_cons.mpr ⟨rfl, List.nil_prefix⟩)
      simp at hc
    | succ d =>
      rw [depth?_closing_succ, ih, forall_prefix_cons]
      simp [Nat.add_right_comm _ 1, ← Nat.add_assoc]

end Token

/-! ## what can be refused -/

namespace Pending

theorem close?_eq_none_iff {stack : List Pending} : close? stack = none ↔ depth stack = 0 := by
  induction stack with
  | nil => exact iff_of_true rfl rfl
  | cons top below ih =>
    cases top with
    | opening => exact iff_of_false nofun (Nat.succ_ne_zero _)
    | operator op =>
      rw [close?_operator, Option.map_eq_none_iff]
      exact ih

theorem drain?_eq_none_iff {stack : List Pending} : drain? stack = none ↔ 0 < depth stack := by
  induction stack with
  | nil => exact iff_of_false nofun (Nat.lt_irrefl 0)
  | cons top below ih =>
    cases top with
    | opening => exact iff_of_true rfl (Nat.succ_pos _)
    | operator op =>
      rw [drain?_operator, Option.map_eq_none_iff]
      exact ih

end Pending

namespace Node

open Token (AllBound depth?)

variable {value? : String → Option Decimal} {stack : List Pending} {ts : List Token} {e : Rejection}

theorem feed_eq_error_iff {t : Token} :
    feed value? stack t = .error e ↔
      (∃ name, t = .identifier name ∧ value? name = none ∧ e = .unknownVariable name) ∨
      t = .closing ∧ Pending.depth stack = 0 ∧ e = .invalidExpression .unopened := by
  cases t with
  | number v => simp [feed]
  | operator op => simp [feed]
  | opening => simp [feed]
  | identifier name =>
    cases hv : value? name with
    | none => simp [feed, hv, eq_comm]
    | some v => simp [feed, hv]
  | closing =>
    rw [← Pending.close?_eq_none_iff]
    cases hc : Pending.close? stack with
    | none => simp [feed, hc, eq_comm]
    | some r => simp [feed, hc]

theorem finish_eq_error_iff :
    finish stack = .error e ↔
      0 < Pending.depth stack ∧ e = .invalidExpression .unclosed := by
  rw [← Pending.drain?_eq_none_iff]
  unfold finish
  cases Pending.drain? stack with
  | none => simp [eq_comm]
  | some ops => simp

/-- a list is refused at its first token that is, or at the end -/
theorem ofTokensFrom_eq_error_iff :
    ofTokensFrom value? stack ts = .error e ↔
      (∃ front t back out mid, ts = front ++ t :: back ∧ Feeds value? stack front out mid ∧
        feed value? mid t = .error e) ∨
      ∃ out last, Feeds value? stack ts out last ∧ finish last = .error e := by
  constructor
  · intro h
    induction ts generalizing stack with
    | nil => exact Or.inr ⟨[], stack, .nil stack, h⟩
    | cons t ts ih =>
      cases hf : feed value? stack t with
      | error e' =>
        rw [ofTokensFrom_cons_of_error hf] at h
        cases h
        exact Or.inl ⟨[], t, ts, [], stack, rfl, .nil stack, hf⟩
      | ok r =>
        obtain ⟨out, next⟩ := r
        rw [ofTokensFrom_cons_of_ok hf, map_eq_error_iff] at h
        have ht := feed_eq_ok_iff.mp hf
        rcases ih h with ⟨front, u, back, outs, mid, rfl, hfeeds, hu⟩ | ⟨outs, last, hfeeds, hend⟩
        · exact Or.inl ⟨t :: front, u, back, _, mid, rfl, .cons ht hfeeds, hu⟩
        · exact Or.inr ⟨_, last, .cons ht hfeeds, hend⟩
  · rintro (⟨front, t, back, out, mid, rfl, hfeeds, ht⟩ | ⟨out, last, hfeeds, hend⟩)
    · rw [ofTokensFrom_append hfeeds, map_eq_error_iff]
      exact ofTokensFrom_cons_of_error ht back
    · have hall := ofTokensFrom_append hfeeds []
      rw [List.append_nil] at hall
      rw [hall, map_eq_error_iff]
      exact hend

/-! ## what is let through -/

theorem exists_takes_closing (value? : String → Option Decimal) (h : 0 < Pending.depth stack) :
    ∃ out next, Takes value? stack .closing out next ∧
      Pending.depth stack = Pending.depth next + 1 := by
  cases hc : Pending.close? stack with
  | none => exact absurd (Pending.close?_eq_none_iff.mp hc) h.ne'
  | some r =>
    obtain ⟨ops, rest⟩ := r
    rw [Pending.close?_eq_some_iff.mp hc, Pending.depth_map_append]
    exact ⟨_, rest, .closing ops rest, rfl⟩

theorem exists_takes_operator (value? : String → Option Decimal) (op : Operator)
    (stack : List Pending) :
    ∃ out next, Takes value? stack (.operator op) out next ∧
      Pending.depth stack = Pending.depth next := by
  cases hr : Pending.release op.precedence stack with
  | mk ops rest =>
    obtain ⟨rfl, hops, hc⟩ := Pending.release_eq_iff.mp hr
    exact ⟨_, _, .operator hops hc, Pending.depth_map_append ops rest⟩

theorem allBound_of_feeds {out : List Node} {last : List Pending}
    (h : Feeds value? stack ts out last) : AllBound value? ts := by
  induction h with
  | nil _ => exact Token.allBound_nil
  | cons ht _ ih =>
    cases ht with
    | operand _ hv => exact Token.allBound_operand.mpr ⟨Option.isSome_of_eq_some hv, ih⟩
    | operator _ _ => exact (Token.allBound_cons rfl).mpr ih
    | opening _ => exact (Token.allBound_cons rfl).mpr ih
    | closing _ _ => exact (Token.allBound_cons rfl).mpr ih

theorem exists_feeds {d : Nat} (hb : AllBound value? ts)
    (hd : depth? (Pending.depth stack) ts = some d) :
    ∃ out last, Feeds value? stack ts out last := by
  induction ts using Token.rec_kinds generalizing stack with
  | nil => exact ⟨[], stack, .nil stack⟩
  | operand a ts ih =>
    obtain ⟨ha, hb⟩ := Token.allBound_operand.mp hb
    obtain ⟨v, hv⟩ := Option.isSome_iff_exists.mp ha
    rw [Token.depth?_token] at hd
    obtain ⟨outs, last, hfeeds⟩ := ih hb hd
    exact ⟨_, last, .cons (.operand stack hv) hfeeds⟩
  | operator op ts ih =>
    obtain ⟨out, next, ht, hdepth⟩ := exists_takes_operator value? op stack
    rw [Token.depth?_operator, hdepth] at hd
    obtain ⟨outs, last, hfeeds⟩ := ih ((Token.allBound_cons rfl).mp hb) hd
    exact ⟨_, last, .cons ht hfeeds⟩
  | opening ts ih =>
    rw [Token.depth?_opening] at hd
    replace hd : depth? (Pending.depth (.opening :: stack)) ts = some d := hd
    obtain ⟨outs, last, hfeeds⟩ := ih ((Token.allBound_cons rfl).mp hb) hd
    exact ⟨_, last, .cons (.opening stack) hfeeds⟩
  | closing ts ih =>
    have hpos : 0 < Pending.depth stack := by
      refine Nat.pos_of_ne_zero fun h0 => ?_
      rw [h0, Token.depth?_closing_zero] at hd
      cases hd
    obtain ⟨out, next, ht, hdepth⟩ := exists_takes_closing value? hpos
    rw [hdepth, Token.depth?_closing_succ] at hd
    obtain ⟨outs, last, hfeeds⟩ := ih ((Token.allBound_cons rfl).mp hb) hd
    exact ⟨_, last, .cons ht hfeeds⟩

/-- from the empty stack, with `d` parentheses open behind it -/
theorem exists_feeds_iff {d : Nat} :
    (∃ out last, Feeds value? [] ts out last ∧ Pending.depth last = d) ↔
      AllBound value? ts ∧ depth? 0 ts = some d := by
  constructor
  · rintro ⟨out, last, hfeeds, rfl⟩
    exact ⟨allBound_of_feeds hfeeds, depth?_of_feeds hfeeds⟩
  · rintro ⟨hb, hd⟩
    replace hd : depth? (Pending.depth []) ts = some d := hd
    obtain ⟨out, last, hfeeds⟩ := exists_feeds hb hd
    have hlast := depth?_of_feeds hfeeds
    rw [hd] at hlast
    exact ⟨out, last, hfeeds, (Option.some.inj hlast).symm⟩

/-! ## the first offence -/

/-- The first offence from the left, and how it is refused: in front of it all names are bound, and
no parenthesis is closed that is not open. -/
inductive Offends (value? : String → Option Decimal) : List Token → Rejection → Prop
  | undefined {front back : List Token} {name : String} {d : Nat} :
      AllBound value? front → depth? 0 front = some d → value? name = none →
      Offends value? (front ++ .identifier name :: back) (.unknownVariable name)
  | unopened {front back : List Token} :
      AllBound value? front → depth? 0 front = some 0 →
      Offends value? (front ++ .closing :: back) (.invalidExpression .unopened)
  | unclosed {ts : List Token} {d : Nat} :
      AllBound value? ts → depth? 0 ts = some (d + 1) →
      Offends value? ts (.invalidExpression .unclosed)

theorem ofTokens_eq_error_iff : ofTokens value? ts = .error e ↔ Offends value? ts e := by
  unfold ofTokens
  rw [ofTokensFrom_eq_error_iff]
  constructor
  · rintro (⟨front, t, back, out, mid, rfl, hfeeds, ht⟩ | ⟨out, last, hfeeds, hend⟩)
    · obtain ⟨hb, hd⟩ := exists_feeds_iff.mp ⟨out, mid, hfeeds, rfl⟩
      rcases feed_eq_error_iff.mp ht with ⟨name, rfl, hv, rfl⟩ | ⟨rfl, h0, rfl⟩
      · exact .undefined hb hd hv
      · rw [h0] at hd
        exact .unopened hb hd
    · obtain ⟨hpos, rfl⟩ := finish_eq_error_iff.mp hend
      obtain ⟨hb, hd⟩ := exists_feeds_iff.mp ⟨out, last, hfeeds, (Nat.sub_add_cancel hpos).symm⟩
      exact .unclosed hb hd
  · intro h
    cases h with
    | undefined hb hd hv =>
      obtain ⟨out, mid, hfeeds, -⟩ := exists_feeds_iff.mpr ⟨hb, hd⟩
      exact Or.inl ⟨_, _, _, out, mid, rfl, hfeeds, feed_eq_error_iff.mpr (Or.inl ⟨_, rfl, hv, rfl⟩)⟩
    | unopened hb hd =>
      obtain ⟨out, mid, hfeeds, h0⟩ := exists_feeds_iff.mpr ⟨hb, hd⟩
      exact Or.inl ⟨_, _, _, out, mid, rfl, hfeeds, feed_eq_error_iff.mpr (Or.inr ⟨rfl, h0, rfl⟩)⟩
    | unclosed hb hd =>
      obtain ⟨out, last, hfeeds, hlast⟩ := exists_feeds_iff.mpr ⟨hb, hd⟩
      have hpos : 0 < Pending.depth last := by omega
      exact Or.inr ⟨out, last, hfeeds, finish_eq_error_iff.mpr ⟨hpos, rfl⟩⟩

theorem exists_ofTokens_iff :
    (∃ nodes, ofTokens value? ts = .ok nodes) ↔ AllBound value? ts ∧ depth? 0 ts = some 0 := by
  rw [← exists_feeds_iff]
  constructor
  · rintro ⟨nodes, h⟩
    obtain ⟨out, ops, hfeeds, -⟩ := ofTokens_eq_ok_iff.mp h
    exact ⟨out, _, hfeeds, Pending.depth_map ops⟩
  · rintro ⟨out, last, hfeeds, h0⟩
    cases hd : Pending.drain? last with
    | none => exact absurd (Pending.drain?_eq_none_iff.mp hd) (by omega)
    | some ops =>
      rw [Pending.drain?_eq_some_iff.mp hd] at hfeeds
      exact ⟨_, ofTokens_eq_ok_iff.mpr ⟨out, ops, hfeeds, rfl⟩⟩

/-- A list of tokens is refused exactly as its first offence is: a name without a value as an unknown
variable, a `)` with none open, or else a `(` that stays open, as an invalid expression. Without an
offence it is converted, so this depends on names and parentheses alone. -/
theorem converted_iff_balanced (value? : String → Option Decimal) (ts : List Token) :
    (∀ e, (nodeStage value? ts).outcome = .error e ↔ Offends value? ts e) ∧
    ((∃ nodes, (nodeStage value? ts).outcome = .ok nodes) ↔
      AllBound value? ts ∧ (∀ front, front <+: ts → front.count .closing ≤ front.count .opening) ∧
        ts.count .closing = ts.count .opening) := by
  rw [outcome_nodeStage]
  refine ⟨fun e => ofTokens_eq_error_iff, ?_⟩
  rw [exists_ofTokens_iff, Token.depth?_eq_some_iff]
  simp only [Nat.zero_add]

/-- `) x`: the parenthesis comes first -/
example : (nodeStage (fun _ => none) [.closing, .identifier "x"]).outcome =
    .error (.invalidExpression .unopened) := rfl

end Node

end DecimalCalculator
