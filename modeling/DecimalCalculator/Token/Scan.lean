import DecimalCalculator.Rejection
import DecimalCalculator.Token
import DecimalCalculator.Token.Signs

/-!
# From text to tokens

A text is cut into lexemes: every operator and every parenthesis is one of its own, and what lies
between two of them is one word. A word is a token if it is an unsigned number or a name, and a
scan ends with the first word that is neither.

The signs in front of the first token are no operators: a `+` is dropped, and a `-` belongs to the
number behind it.
-/

namespace DecimalCalculator

/-! ## lexemes -/

/-- neither an operator nor a parenthesis -/
def isWordChar (c : Char) : Bool := (Operator.ofSymbol? c).isNone && c != '(' && c != ')'

/-- `c` in front of the lexemes of a text, joined to the word that the text begins with -/
def joinLexeme (c : Char) : List (List Char) → List (List Char)
  | (d :: w) :: rest =>
    if isWordChar c && isWordChar d then (c :: d :: w) :: rest else [c] :: (d :: w) :: rest
  | rest => [c] :: rest

/-- the operators and parentheses of a text, and the words between them -/
def lexemes : List Char → List (List Char)
  | [] => []
  | c :: rest => joinLexeme c (lexemes rest)

theorem lexemes_nil : lexemes [] = [] := rfl
theorem lexemes_cons (c : Char) (rest : List Char) :
    lexemes (c :: rest) = joinLexeme c (lexemes rest) := rfl

theorem flatten_joinLexeme (c : Char) (ls : List (List Char)) :
    (joinLexeme c ls).flatten = c :: ls.flatten := by
  unfold joinLexeme
  split
  · split <;> simp
  · simp

/-- nothing is lost between the lexemes -/
theorem flatten_lexemes (cs : List Char) : (lexemes cs).flatten = cs := by
  induction cs with
  | nil => rfl
  | cons c cs ih => rw [lexemes_cons, flatten_joinLexeme, ih]

/-! ## tokens -/

namespace Token

/-- the token of a word: an unsigned number or a name -/
def ofWord (w : List Char) : Except Rejection Token :=
  match Decimal.ofUnsigned? w with
  | some value => .ok (.number value)
  | none =>
    if isIdentifier w then .ok (.identifier (String.ofList w))
    else .error (.invalidExpression (.malformedWord (String.ofList w)))

/-- the token of a lexeme -/
def ofLexeme (w : List Char) : Except Rejection Token :=
  match w with
  | ['('] => .ok .opening
  | [')'] => .ok .closing
  | [c] =>
    match Operator.ofSymbol? c with
    | some op => .ok (.operator op)
    | none => ofWord [c]
  | w => ofWord w

/-- the tokens of the lexemes up to the first that is none, and the refusal of that one -/
def ofLexemes : List (List Char) → List (Except Rejection Token)
  | [] => []
  | w :: rest =>
    match ofLexeme w with
    | .ok t => .ok t :: ofLexemes rest
    | .error e => [.error e]

/-- the tokens of a text, up to its first word that is none -/
def scan (text : List Char) : List (Except Rejection Token) := ofLexemes (lexemes text)

/-- all tokens of a scan, if none was refused -/
def collect : List (Except Rejection Token) → Except Rejection (List Token)
  | [] => .ok []
  | .ok t :: rest => (collect rest).map (t :: ·)
  | .error e :: _ => .error e

theorem ofLexemes_nil : ofLexemes [] = [] := rfl
theorem ofLexemes_cons_of_ok {w : List Char} {t : Token} (h : ofLexeme w = .ok t)
    (rest : List (List Char)) : ofLexemes (w :: rest) = .ok t :: ofLexemes rest := by
  rw [ofLexemes, h]
theorem ofLexemes_cons_of_error {w : List Char} {e : Rejection} (h : ofLexeme w = .error e)
    (rest : List (List Char)) : ofLexemes (w :: rest) = [.error e] := by
  rw [ofLexemes, h]

theorem collect_nil : collect [] = .ok [] := rfl
theorem collect_ok_cons (t : Token) (rest : List (Except Rejection Token)) :
    collect (.ok t :: rest) = (collect rest).map (t :: ·) := rfl
theorem collect_error_cons (e : Rejection) (rest : List (Except Rejection Token)) :
    collect (.error e :: rest) = .error e := rfl

/-- the signs in front: a `+` is dropped, a `-` belongs to the number behind it -/
def dropLeadingSign : List Token → Except Rejection (List Token)
  | .operator .add :: rest => .ok rest
  | .operator .sub :: .number value :: rest => .ok (.number (-value) :: rest)
  | .operator .sub :: _ => .error (.invalidExpression .signWithoutNumber)
  | tokens => .ok tokens

/-- the tokens of an expression -/
def ofText (text : List Char) : Except Rejection (List Token) := do
  let dense ← normalize text
  let tokens ← collect (scan dense)
  dropLeadingSign tokens

end Token

end DecimalCalculator
