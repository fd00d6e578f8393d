import Mathlib
import DecimalCalculator.Calculator

/-!
# What an expression takes from the store

The conversion asks the store for nothing but the names of its tokens, one after another. Two
stores that answer these alike give the same postfix form, or the same refusal
(`Node.ofTokens_congr`), and a store may as well answer beforehand: each name that has a value is
replaced by the number, and the rest is converted without a store (`Node.ofTokens_filled`). A
number put in so may be negative, as no number inside an expression is when it is read; it is one
operand all the same.

* `Store`                a store of one kind or the other: in order, or hashed;
* `Store.AgreesOn`       two stores answer the names of some tokens alike;
* `Token.filled value?`  a token with its value in place of its name.
-/

namespace DecimalCalculator

/-! ## stores -/

/-- what names can be looked up in -/
inductive Store where
  | ordered (b : Bindings)
  | hashed (m : Std.HashMap String Decimal)

namespace Store

def get? : Store → String → Option Decimal
  | ordered b => b.get?
  | hashed m => fun name => m[name]?

/-- a store that holds nothing -/
def empty : Store := ordered .empty

def AgreesOn (ts : List Token) (s s' : Store) : Prop :=
  ∀ name, .identifier name ∈ ts → s.get? name = s'.get? name

end Store

/-- a name that has a value as the number -/
def Token.filled (value? : String → Option Decimal) : Token → Token
  | .identifier name =>
    match value? name with
    | some v => .number v
    | none => .identifier name
  | t => t

/-! ## the conversion -/

namespace Node

variable {value? value?' : String → Option Decimal}

theorem feed_congr {t : Token} (h : ∀ name, .identifier name = t → value? name = value?' name)
    (stack : List Pending) : feed value? stack t = feed value?' stack t := by
  cases t with
  | number v => rfl
  | identifier name => simp only [feed, h name rfl]
  | operator op => rfl
  | opening => rfl
  | closing => rfl

theorem ofTokensFrom_congr {ts : List Token}
    (h : ∀ name, .identifier name ∈ ts → value? name = value?' name) (stack : List Pending) :
    ofTokensFrom value? stack ts = ofTokensFrom value?' stack ts := by
  induction ts generalizing stack with
  | nil => rfl
  | cons t ts ih =>
    have hfeed : feed value? stack t = feed value?' stack t :=
      feed_congr (fun name ht => h name (ht ▸ List.mem_cons_self)) stack
    have hrest := ih fun name hn => h name (List.mem_cons_of_mem _ hn)
    cases hr : feed value?' stack t with
    | error e => rw [ofTokensFrom_cons_of_error (hfeed.trans hr), ofTokensFrom_cons_of_error hr]
    | ok r => rw [ofTokensFrom_cons_of_ok (hfeed.trans hr), ofTokensFrom_cons_of_ok hr, hrest]

/-- **The conversion asks for the names of its tokens only.** -/
theorem ofTokens_congr {ts : List Token}
    (h : ∀ name, .identifier name ∈ ts → value? name = value?' name) :
    ofTokens value? ts = ofTokens value?' ts := ofTokensFrom_congr h []

/-- a value is fed like the name that has it -/
theorem feed_filled (value? : String → Option Decimal) (stack : List Pending) (t : Token) :
    feed (fun _ => none) stack (t.filled value?) = feed value? stack t := by
  cases t with
  | number v => rfl
  | identifier name =>
    cases hv : value? name with
    | none => simp only [Token.filled, feed, hv]
    | some v => simp only [Token.filled, feed, hv]
  | operator op => rfl
  | opening => rfl
  | closing => rfl

theorem ofTokensFrom_filled (stack : List Pending) (ts : List Token) :
    ofTokensFrom (fun _ => none) stack (ts.map (Token.filled value?)) =
      ofTokensFrom value? stack ts := by
  induction ts generalizing stack with
  | nil => rfl
  | cons t ts ih =>
    have hfeed := feed_filled value? stack t
    rw [List.map_cons]
    cases hr : feed value? stack t with
    | error e => rw [ofTokensFrom_cons_of_error (hfeed.trans hr), ofTokensFrom_cons_of_error hr]
    | ok r => rw [ofTokensFrom_cons_of_ok (hfeed.trans hr), ofTokensFrom_cons_of_ok hr, ih]

/-- **A store may answer beforehand.** -/
theorem ofTokens_filled (ts : List Token) :
    ofTokens (fun _ => none) (ts.map (Token.filled value?)) = ofTokens value? ts :=
  ofTokensFrom_filled [] ts

end Node

/-! ## the stages of an expression -/

section
variable {value? value?' : String → Option Decimal}

theorem nodeStage_congr {ts ts' : List Token}
    (h : Node.ofTokens value? ts = Node.ofTokens value?' ts') :
    nodeStage value? ts = nodeStage value?' ts' := by
  unfold nodeStage
  rw [h]

theorem nodesOfText_congr {text : List Char}
    (h : ∀ ts, Token.ofText text = .ok ts →
      ∀ name, .identifier name ∈ ts → value? name = value?' name) :
    nodesOfText value? text = nodesOfText value?' text := by
  unfold nodesOfText
  have houtcome := outcome_tokenStage text
  cases hts : Token.ofText text with
  | error e =>
    rw [hts] at houtcome
    rw [Reported.bind_of_error houtcome, Reported.bind_of_error houtcome]
  | ok ts =>
    rw [hts] at houtcome
    rw [Reported.bind_of_ok houtcome, Reported.bind_of_ok houtcome,
      nodeStage_congr (Node.ofTokens_congr (h ts hts))]

end

/-- **An expression takes the values of its names from the store, and nothing else.** Two stores
that agree on the names among some tokens convert them alike, to the same nodes or with the same
refusal; each store converts them as an empty one does with the values put in. Two calculators
with the same scale that agree on the names of a text calculate it alike. -/
theorem store_only_by_names :
    (∀ (s s' : Store) (ts : List Token), s.AgreesOn ts s' →
      nodeStage s.get? ts = nodeStage s'.get? ts) ∧
    (∀ (s : Store) (ts : List Token),
      nodeStage s.get? ts = nodeStage Store.empty.get? (ts.map (Token.filled s.get?))) ∧
    ∀ (c c' : Calculator) (text : List Char), c.scale = c'.scale →
      (∀ ts, Token.ofText text = .ok ts →
        (Store.ordered c.bindings).AgreesOn ts (.ordered c'.bindings)) →
      c.calculate text = c'.calculate text := by
  refine ⟨?_, ?_, ?_⟩
  · intro s s' ts h
    exact nodeStage_congr (Node.ofTokens_congr h)
  · intro s ts
    exact nodeStage_congr (Node.ofTokens_filled ts).symm
  · intro c c' text hscale h
    have hnodes : nodesOfText c.bindings.get? text = nodesOfText c'.bindings.get? text :=
      nodesOfText_congr h
    unfold Calculator.calculate
    rw [hscale, hnodes]

end DecimalCalculator
