import DecimalCalculator.Proofs.Text.Utf8

/-!
# What the decoder reads

Bytes are read from the left (`Lossy`): the character that stands in front, or U+FFFD for an
invalid part, and then what is behind it. An invalid part (`InvalidPart`) is the longest front that
some character begins with, or a single byte. This is what the decoder does (`lossy_iff`), and it
is the only way to read the bytes (`Reads.unique`).

Every other character stands in the bytes (`infix_of_mem_decode`), and a text without U+FFFD is
written as the bytes that it was read from (`encode_decode`). An ASCII byte cuts its bytes into
two parts that are decoded on their own (`decode_append_cons_of_ascii`).
-/

namespace DecimalCalculator

namespace Utf8

/-- no character stands at the front of `part` and what is behind it, and `part` is the longest
front that begins one, or a single byte -/
structure InvalidPart (part rest : List UInt8) : Prop where
  no_character : ∀ c, ¬String.utf8EncodeChar c <+: part ++ rest
  begins : (∃ b, part = [b]) ∨ part ≠ [] ∧ ∃ c, part <+: String.utf8EncodeChar c
  longest : ∀ b, rest.head? = some b → ∀ c, ¬part ++ [b] <+: String.utf8EncodeChar c

/-- what is read first from bytes, and the bytes behind it -/
inductive Reads (bytes : List UInt8) : Char → List UInt8 → Prop
  | character (c : Char) (rest : List UInt8) (h : bytes = String.utf8EncodeChar c ++ rest) :
    Reads bytes c rest
  | invalid (part rest : List UInt8) (h : bytes = part ++ rest) (hpart : InvalidPart part rest) :
    Reads bytes replacement rest

/-- bytes read from the left, up to their end -/
inductive Lossy : List UInt8 → List Char → Prop
  | nil : Lossy [] []
  | cons {bytes rest : List UInt8} {c : Char} {cs : List Char} (hc : Reads bytes c rest)
    (h : Lossy rest cs) : Lossy bytes (c :: cs)

/-! ## one reading -/

theorem Opens.invalidPart {p rest : List UInt8} {s : Sequence} (h : Opens p s)
    (hrest : ∀ b, rest.head? = some b → ¬(s.low ≤ b.toNat ∧ b.toNat ≤ s.high)) :
    InvalidPart p rest := by
  have hlongest : ∀ b, rest.head? = some b → ∀ c, ¬p ++ [b] <+: String.utf8EncodeChar c :=
    fun b hb c => h.not_begins_concat (hrest b hb) c
  refine ⟨fun c hc => ?_, Or.inr ⟨h.ne_nil, h.exists_character⟩, hlongest⟩
  rcases List.prefix_or_prefix_of_prefix hc (List.prefix_append p rest) with hcp | hpc
  · exact h.no_character c hcp
  · -- the character goes on behind `p` with the first byte of the rest
    rw [h.encode c (h.admits c hpc), List.prefix_append_right_inj, trailing_succ] at hc
    obtain ⟨tail, rfl⟩ := hc
    refine hlongest _ rfl c ?_
    rw [h.encode c (h.admits c hpc), List.prefix_append_right_inj, trailing_succ]
    exact List.cons_prefix_cons.mpr ⟨rfl, List.nil_prefix⟩

theorem eq_of_utf8EncodeChar_append {c c' : Char} {rest rest' : List UInt8}
    (h : String.utf8EncodeChar c ++ rest = String.utf8EncodeChar c' ++ rest') : c = c' := by
  have hc := ByteArray.utf8DecodeChar?_utf8EncodeChar_append (b := rest.toByteArray) (c := c)
  have hc' := ByteArray.utf8DecodeChar?_utf8EncodeChar_append (b := rest'.toByteArray) (c := c')
  rw [← List.toByteArray_append] at hc hc'
  rw [h, hc'] at hc
  exact (Option.some.inj hc).symm

namespace InvalidPart

variable {part rest : List UInt8}

theorem ne_nil (h : InvalidPart part rest) : part ≠ [] := by
  rcases h.begins with ⟨b, rfl⟩ | ⟨hne, -⟩
  · exact List.cons_ne_nil _ _
  · exact hne

/-- of two invalid parts at one place none is longer -/
theorem eq_nil_of_append {more : List UInt8} (h : InvalidPart part (more ++ rest))
    (hmore : InvalidPart (part ++ more) rest) : more = [] := by
  cases more with
  | nil => rfl
  | cons b more =>
    rcases hmore.begins with ⟨a, ha⟩ | ⟨-, c, hc⟩
    · have hlength := congrArg List.length ha
      have hpos := List.length_pos_iff.mpr h.ne_nil
      simp only [List.length_append, List.length_cons, List.length_nil] at hlength
      omega
    · have hfront : part ++ [b] <+: part ++ b :: more :=
        (List.prefix_append_right_inj part).mpr (List.cons_prefix_cons.mpr ⟨rfl, List.nil_prefix⟩)
      exact absurd (hfront.trans hc) (h.longest b rfl c)

end InvalidPart

namespace Reads

variable {bytes rest : List UInt8} {c : Char}

theorem length_lt (h : Reads bytes c rest) : rest.length < bytes.length := by
  cases h with
  | character c rest h =>
    have hpos := List.length_pos_iff.mpr (String.utf8EncodeChar_ne_nil (c := c))
    rw [h, List.length_append]
    omega
  | invalid part rest h hpart =>
    have hpos := List.length_pos_iff.mpr hpart.ne_nil
    rw [h, List.length_append]
    omega

theorem suffix (h : Reads bytes c rest) : rest <:+ bytes := by
  cases h with
  | character c rest h => exact h ▸ List.suffix_append _ rest
  | invalid part rest h _ => exact h ▸ List.suffix_append part rest

theorem unique {rest' : List UInt8} {c' : Char} (h : Reads bytes c rest)
    (h' : Reads bytes c' rest') : c = c' ∧ rest = rest' := by
  cases h with
  | character c rest h =>
    cases h' with
    | character c' rest' h' =>
      obtain rfl := eq_of_utf8EncodeChar_append (h.symm.trans h')
      exact ⟨rfl, List.append_cancel_left (h.symm.trans h')⟩
    | invalid part rest' h' hpart =>
      exact absurd (h' ▸ h ▸ List.prefix_append _ rest) (hpart.no_character c)
  | invalid part rest h hpart =>
    cases h' with
    | character c' rest' h' =>
      exact absurd (h ▸ h' ▸ List.prefix_append _ rest') (hpart.no_character c')
    | invalid part' rest' h' hpart' =>
      refine ⟨rfl, ?_⟩
      rcases List.append_eq_append_iff.mp (h.symm.trans h') with ⟨more, rfl, rfl⟩ | ⟨more, rfl, rfl⟩
      · rw [hpart.eq_nil_of_append hpart', List.nil_append]
      · rw [hpart'.eq_nil_of_append hpart, List.nil_append]

end Reads

/-! ## the decoder -/

/-- an open sequence goes on until it is a character or an invalid part -/
theorem Opens.exists_reads {p : List UInt8} {s : Sequence} (h : Opens p s) (bytes : List UInt8) :
    ∃ c rest, Reads (p ++ bytes) c rest ∧ decodeFrom (some s) bytes = c :: decode rest := by
  induction bytes generalizing p s with
  | nil => exact ⟨replacement, [], .invalid p [] rfl (h.invalidPart nofun), rfl⟩
  | cons b bytes ih =>
    by_cases hb : s.low ≤ b.toNat ∧ b.toNat ≤ s.high
    · have hfeed : feed (some s) b.toNat = s.advance b.toNat := if_pos hb
      rw [decodeFrom_cons, hfeed]
      cases hbehind : s.behind with
      | zero =>
        refine ⟨Char.ofNat (64 * s.bits + (b.toNat - 0x80)), bytes, .character _ bytes ?_, ?_⟩
        · rw [h.complete hb.1 hb.2 hbehind, List.append_assoc]
          rfl
        · rw [Sequence.advance_of_zero hbehind]
          rfl
      | succ k =>
        obtain ⟨c, rest, hreads, hdecode⟩ := ih (h.extend hb.1 hb.2 hbehind)
        refine ⟨c, rest, ?_, ?_⟩
        · rwa [List.append_assoc] at hreads
        · rw [Sequence.advance_of_succ hbehind]
          exact hdecode
    · have hpart : InvalidPart p (b :: bytes) := h.invalidPart fun b' hb' => by
        rwa [← Option.some.inj hb']
      have hfeed : feed (some s) b.toNat = (replacement :: (start b.toNat).1, (start b.toNat).2) :=
        if_neg hb
      refine ⟨replacement, b :: bytes, .invalid p _ rfl hpart, ?_⟩
      rw [decodeFrom_cons, hfeed]
      rfl

/-- a byte that begins no character is an invalid part of its own -/
theorem invalidPart_of_lead {b : UInt8} (h : lead b.toNat = .invalid) (rest : List UInt8) :
    InvalidPart [b] rest := by
  have hno (p : List UInt8) (c : Char) : ¬b :: p <+: String.utf8EncodeChar c := by
    intro hc
    rcases lead_of_begins hc with hlead | ⟨s, hlead, -⟩
    · rw [h] at hlead
      cases hlead
    · rw [h] at hlead
      cases hlead
  refine ⟨fun c hc => ?_, Or.inl ⟨b, rfl⟩, fun a _ c => hno [a] c⟩
  cases hbytes : String.utf8EncodeChar c with
  | nil => exact String.utf8EncodeChar_ne_nil hbytes
  | cons a p =>
    rw [hbytes] at hc
    obtain rfl := (List.cons_prefix_cons.mp hc).1
    exact hno p c (hbytes ▸ List.prefix_refl _)

theorem exists_reads (b : UInt8) (bytes : List UInt8) :
    ∃ c rest, Reads (b :: bytes) c rest ∧ decode (b :: bytes) = c :: decode rest := by
  have hcons : decode (b :: bytes) = (start b.toNat).1 ++ decodeFrom (start b.toNat).2 bytes := rfl
  unfold start at hcons
  cases hlead : lead b.toNat with
  | character c =>
    rw [hlead] at hcons
    refine ⟨c, bytes, .character c bytes ?_, hcons⟩
    rw [utf8EncodeChar_of_lead hlead]
    rfl
  | sequence s =>
    rw [hlead] at hcons
    rw [hcons]
    exact (opens_of_lead hlead).exists_reads bytes
  | invalid =>
    rw [hlead] at hcons
    exact ⟨replacement, bytes, .invalid [b] bytes rfl (invalidPart_of_lead hlead bytes), hcons⟩

/-- **The decoder reads bytes as they are to be read.** -/
theorem lossy_iff {bytes : List UInt8} {cs : List Char} : Lossy bytes cs ↔ cs = decode bytes := by
  constructor
  · intro h
    induction h with
    | nil => rfl
    | @cons bytes rest c cs hc _ ih =>
      cases bytes with
      | nil => exact absurd hc.length_lt (Nat.not_lt_zero _)
      | cons b bytes =>
        obtain ⟨c', rest', hc', hdecode⟩ := exists_reads b bytes
        obtain ⟨rfl, rfl⟩ := hc.unique hc'
        rw [hdecode, ih]
  · rintro rfl
    induction hn : bytes.length using Nat.strong_induction_on generalizing bytes with
    | h n ih =>
      cases bytes with
      | nil => exact .nil
      | cons b bytes =>
        obtain ⟨c, rest, hc, hdecode⟩ := exists_reads b bytes
        rw [hdecode]
        exact .cons hc (ih _ (hn ▸ hc.length_lt) rfl)

/-! ## the characters that are read -/

/-- every character but U+FFFD stands in the bytes -/
theorem infix_of_mem_decode {c : Char} (hc : c ≠ replacement) {bytes : List UInt8}
    (h : c ∈ decode bytes) : String.utf8EncodeChar c <:+: bytes := by
  have hlossy : Lossy bytes (decode bytes) := lossy_iff.mpr rfl
  generalize decode bytes = cs at h hlossy
  induction hlossy with
  | nil => cases h
  | @cons bytes rest d cs hd _ ih =>
    rcases List.mem_cons.mp h with rfl | htail
    · cases hd with
      | character c rest hbytes => exact hbytes ▸ (List.prefix_append _ rest).isInfix
      | invalid => exact absurd rfl hc
    · exact (ih htail).trans hd.suffix.isInfix

/-- bytes that are read without U+FFFD are those of the text -/
theorem encode_decode {bytes : List UInt8} (h : replacement ∉ decode bytes) :
    encode (String.ofList (decode bytes)) = bytes := by
  have hlossy : Lossy bytes (decode bytes) := lossy_iff.mpr rfl
  rw [encode, String.toList_ofList]
  generalize decode bytes = cs at h hlossy
  induction hlossy with
  | nil => rfl
  | @cons bytes rest d cs hd _ ih =>
    rw [List.flatMap_cons, ih (List.not_mem_of_not_mem_cons h)]
    cases hd with
    | character c rest hbytes => exact hbytes.symm
    | invalid => exact absurd List.mem_cons_self h

/-! ## ASCII bytes -/

section
variable {b : UInt8} (hb : b.toNat < 0x80)
include hb

theorem decodeFrom_append_cons_of_ascii (state : Option Sequence) (l rest : List UInt8) :
    decodeFrom state (l ++ b :: rest) =
      decodeFrom state l ++ Char.ofNat b.toNat :: decode rest := by
  induction l generalizing state with
  | nil => exact decodeFrom_cons_of_ascii hb state rest
  | cons a l ih =>
    rw [List.cons_append, decodeFrom_cons, decodeFrom_cons, ih, List.append_assoc]

/-- **What is in front of an ASCII byte and what is behind it are decoded on their own.** -/
theorem decode_append_cons_of_ascii (l rest : List UInt8) :
    decode (l ++ b :: rest) = decode l ++ Char.ofNat b.toNat :: decode rest :=
  decodeFrom_append_cons_of_ascii hb none l rest

end

end Utf8

end DecimalCalculator
