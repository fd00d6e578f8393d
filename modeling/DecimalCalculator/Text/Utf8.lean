/-!
# UTF-8

`encode` writes a text as bytes. `decode` reads any bytes: every maximal part that begins like a
character and cannot be continued to one, and every byte that begins none, is read as the one
character U+FFFD.

The decoder goes byte by byte. Between two bytes it is either between two characters or inside a
`Sequence`, and a byte that cannot continue the sequence ends it and is looked at again as the
first byte of a character. So a newline byte always ends what is in front of it.
-/

namespace DecimalCalculator

namespace Utf8

/-- the bytes of a text -/
def encode (text : String) : List UInt8 := text.toList.flatMap String.utf8EncodeChar

theorem encode_append (a b : String) : encode (a ++ b) = encode a ++ encode b := by
  simp [encode]

/-! ## sequences -/

/-- a character of which bytes are missing: its bits so far, the number of bytes behind the next
one, and the bounds of the next one, which is never an ASCII character -/
structure Sequence where
  bits : Nat
  behind : Nat
  low : Nat
  high : Nat
  low_ge : 0x80 ≤ low

/-- what a byte is at the beginning of a character -/
inductive Lead where
  | character (c : Char)
  | sequence (s : Sequence)
  | invalid

/-- The bounds of the second byte leave out overlong forms, surrogates and what lies behind the
last code point. -/
def lead (b : Nat) : Lead :=
  if b < 0x80 then .character (Char.ofNat b)
  else if b < 0xC2 then .invalid
  else if b < 0xE0 then .sequence ⟨b - 0xC0, 0, 0x80, 0xBF, by decide⟩
  else if b < 0xF0 then
    .sequence ⟨b - 0xE0, 1, if b = 0xE0 then 0xA0 else 0x80, if b = 0xED then 0x9F else 0xBF,
      by split <;> decide⟩
  else if b < 0xF5 then
    .sequence ⟨b - 0xF0, 2, if b = 0xF0 then 0x90 else 0x80, if b = 0xF4 then 0x8F else 0xBF,
      by split <;> decide⟩
  else .invalid

/-! ## the decoder -/

def replacement : Char := '\uFFFD'

/-- the characters that a first byte completes, and the sequence that it begins -/
def start (b : Nat) : List Char × Option Sequence :=
  match lead b with
  | .character c => ([c], none)
  | .sequence s => ([], some s)
  | .invalid => ([replacement], none)

/-- the sequence behind a byte within the bounds, with `k` bytes behind the next one -/
def Sequence.next (s : Sequence) (b k : Nat) : Sequence :=
  ⟨64 * s.bits + (b - 0x80), k, 0x80, 0xBF, by decide⟩

/-- a byte within the bounds of a sequence -/
def Sequence.advance (s : Sequence) (b : Nat) : List Char × Option Sequence :=
  match s.behind with
  | 0 => ([Char.ofNat (64 * s.bits + (b - 0x80))], none)
  | k + 1 => ([], some (s.next b k))

/-- the characters that a byte completes, and the sequence that is open behind it -/
def feed (state : Option Sequence) (b : Nat) : List Char × Option Sequence :=
  match state with
  | none => start b
  | some s =>
    if s.low ≤ b ∧ b ≤ s.high then s.advance b
    else
      let (out, next) := start b
      (replacement :: out, next)

/-- a sequence that is still open at the end -/
def finish : Option Sequence → List Char
  | none => []
  | some _ => [replacement]

/-- the characters of bytes that follow on a state -/
def decodeFrom (state : Option Sequence) : List UInt8 → List Char
  | [] => finish state
  | b :: rest =>
    let (out, next) := feed state b.toNat
    out ++ decodeFrom next rest

def decode (bytes : List UInt8) : List Char := decodeFrom none bytes

theorem decodeFrom_nil (state : Option Sequence) : decodeFrom state [] = finish state := rfl
theorem decodeFrom_cons (state : Option Sequence) (b : UInt8) (rest : List UInt8) :
    decodeFrom state (b :: rest) =
      (feed state b.toNat).1 ++ decodeFrom (feed state b.toNat).2 rest := rfl

/-! ## ASCII bytes -/

theorem start_of_ascii {b : Nat} (h : b < 0x80) : start b = ([Char.ofNat b], none) := by
  unfold start lead
  rw [if_pos h]

/-- an ASCII byte ends a sequence that is open, and stands for itself -/
theorem feed_of_ascii {b : Nat} (h : b < 0x80) (state : Option Sequence) :
    feed state b = (finish state ++ [Char.ofNat b], none) := by
  cases state with
  | none => exact start_of_ascii h
  | some s =>
    have hl := s.low_ge
    have hn : ¬ (s.low ≤ b ∧ b ≤ s.high) := by omega
    show (if s.low ≤ b ∧ b ≤ s.high then s.advance b
      else (replacement :: (start b).1, (start b).2)) = _
    rw [if_neg hn, start_of_ascii h]
    rfl

theorem decodeFrom_cons_of_ascii {b : UInt8} (h : b.toNat < 0x80) (state : Option Sequence)
    (rest : List UInt8) :
    decodeFrom state (b :: rest) = finish state ++ Char.ofNat b.toNat :: decode rest := by
  rw [decodeFrom_cons, feed_of_ascii h, List.append_assoc]
  rfl

end Utf8

end DecimalCalculator
