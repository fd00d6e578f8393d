import Mathlib
import DecimalCalculator.Text.Utf8

/-!
# The bytes of a character

Behind the first byte of a character stand the groups of six bits of its code point, and the first
byte tells how many (`utf8EncodeChar_eq`). What is open behind some bytes says of every code point
whether its bytes go on there (`Sequence.Admits`, `Opens`): the bounds of the second byte leave
exactly the code points of characters (`admits_iff_of_lead`). So an open sequence is always the
front of some character (`Opens.exists_character`), and a byte out of its bounds is behind a front
that no character goes on from (`Opens.not_begins_concat`).
-/

namespace DecimalCalculator

namespace Utf8

/-! ## first bytes and the bytes behind them -/

/-- the last `k` groups of six bits of `n`, each in the byte that it has behind a first byte -/
def trailing : ℕ → ℕ → List UInt8
  | 0, _ => []
  | k + 1, n => UInt8.ofNat (0x80 + n / 64 ^ k % 64) :: trailing k n

theorem trailing_zero (n : ℕ) : trailing 0 n = [] := rfl
theorem trailing_succ (k n : ℕ) :
    trailing (k + 1) n = UInt8.ofNat (0x80 + n / 64 ^ k % 64) :: trailing k n := rfl

/-- the groups of six bits behind the first byte of a code point -/
def groups (n : ℕ) : ℕ :=
  if n < 0x80 then 0 else if n < 0x800 then 1 else if n < 0x10000 then 2 else 3

/-- what the first byte is, if all the bits behind it are zero -/
def firstBase : ℕ → ℕ
  | 0 => 0
  | 1 => 0xC0
  | 2 => 0xE0
  | _ => 0xF0

/-- the first byte of a code point -/
def firstByte (n : ℕ) : ℕ := firstBase (groups n) + n / 64 ^ groups n

theorem groups_of_ascii {n : ℕ} (h : n < 0x80) : groups n = 0 := if_pos h

theorem firstByte_of_ascii {n : ℕ} (h : n < 0x80) : firstByte n = n := by
  unfold firstByte
  rw [groups_of_ascii h, pow_zero, Nat.div_one]
  exact Nat.zero_add n

theorem firstByte_le {n : ℕ} (h : n.isValidChar) : firstByte n ≤ 0xF4 := by
  unfold Nat.isValidChar at h
  unfold firstByte groups
  split_ifs <;> simp only [firstBase] <;> omega

theorem utf8EncodeChar_eq (c : Char) :
    String.utf8EncodeChar c =
      UInt8.ofNat (firstByte c.toNat) :: trailing (groups c.toNat) c.toNat := by
  have hvalid : c.toNat.isValidChar := c.valid
  have hn : c.val.toNat = c.toNat := rfl
  simp only [String.utf8EncodeChar, hn]
  generalize c.toNat = n at *
  unfold Nat.isValidChar at hvalid
  unfold firstByte groups
  by_cases h1 : n < 0x80
  · rw [if_pos h1, if_pos (by omega)]
    simp [firstBase, trailing]
  rw [if_neg h1, if_neg (by omega)]
  by_cases h2 : n < 0x800
  · have hfirst : n / 64 % 32 + 192 = 0xC0 + n / 64 ^ 1 := by omega
    rw [if_pos h2, if_pos (by omega), hfirst]
    simp [firstBase, trailing, Nat.add_comm]
  rw [if_neg h2, if_neg (by omega)]
  by_cases h3 : n < 0x10000
  · have hfirst : n / 4096 % 16 + 224 = 0xE0 + n / 64 ^ 2 := by omega
    rw [if_pos h3, if_pos (by omega), hfirst]
    simp [firstBase, trailing, Nat.add_comm]
  have hfirst : n / 262144 % 8 + 240 = 0xF0 + n / 64 ^ 3 := by omega
  rw [if_neg h3, if_neg (by omega), hfirst]
  simp [firstBase, trailing, Nat.add_comm]

/-! ## what a first byte begins -/

/-- the code points whose bytes go on like this -/
def Sequence.Admits (s : Sequence) (n : ℕ) : Prop :=
  n / 64 ^ (s.behind + 1) = s.bits ∧
    s.low ≤ 0x80 + n / 64 ^ s.behind % 64 ∧ 0x80 + n / 64 ^ s.behind % 64 ≤ s.high

theorem groups_and_firstByte_iff {n k b : ℕ} :
    groups n = k ∧ firstByte n = b ↔ groups n = k ∧ firstBase k + n / 64 ^ k = b := by
  refine and_congr_right ?_
  rintro rfl
  rfl

theorem groups_eq_one_iff {n : ℕ} : groups n = 1 ↔ 0x80 ≤ n ∧ n < 0x800 := by
  unfold groups
  split_ifs <;> simp <;> omega

theorem groups_eq_two_iff {n : ℕ} : groups n = 2 ↔ 0x800 ≤ n ∧ n < 0x10000 := by
  unfold groups
  split_ifs <;> simp <;> omega

theorem groups_eq_three_iff {n : ℕ} : groups n = 3 ↔ 0x10000 ≤ n := by
  unfold groups
  split_ifs <;> simp <;> omega

theorem admits_iff_of_lead {b n : ℕ} {s : Sequence} (h : lead b = .sequence s) :
    s.Admits n ↔ n.isValidChar ∧ groups n = s.behind + 1 ∧ firstByte n = b := by
  unfold Sequence.Admits
  rw [groups_and_firstByte_iff]
  unfold lead at h
  by_cases h1 : b < 0x80
  · rw [if_pos h1] at h
    injection h
  rw [if_neg h1] at h
  by_cases h2 : b < 0xC2
  · rw [if_pos h2] at h
    injection h
  rw [if_neg h2] at h
  by_cases h3 : b < 0xE0
  · rw [if_pos h3] at h
    injection h with hs
    rw [← hs]
    simp only [Nat.reduceAdd, Nat.reducePow, groups_eq_one_iff, firstBase, Nat.isValidChar]
    omega
  rw [if_neg h3] at h
  by_cases h4 : b < 0xF0
  · rw [if_pos h4] at h
    injection h with hs
    rw [← hs]
    simp only [Nat.reduceAdd, Nat.reducePow, groups_eq_two_iff, firstBase, Nat.isValidChar]
    split_ifs <;> omega
  rw [if_neg h4] at h
  by_cases h5 : b < 0xF5
  · rw [if_pos h5] at h
    injection h with hs
    rw [← hs]
    simp only [Nat.reduceAdd, Nat.reducePow, groups_eq_three_iff, firstBase, Nat.isValidChar]
    split_ifs <;> omega
  · rw [if_neg h5] at h
    injection h

/-- a byte that is a character is all of it -/
theorem utf8EncodeChar_of_lead {b : UInt8} {c : Char} (h : lead b.toNat = .character c) :
    String.utf8EncodeChar c = [b] := by
  unfold lead at h
  by_cases hb : b.toNat < 0x80
  · rw [if_pos hb] at h
    injection h with hc
    have hto : c.toNat = b.toNat := by
      rw [← hc, Char.toNat_ofNat, if_pos (Or.inl (by omega))]
    rw [utf8EncodeChar_eq, hto, groups_of_ascii hb, firstByte_of_ascii hb, UInt8.ofNat_toNat,
      trailing_zero]
  · rw [if_neg hb] at h
    split_ifs at h

/-- the first byte of a character is the character, or begins a sequence that admits it -/
theorem lead_firstByte (c : Char) :
    lead (firstByte c.toNat) = .character c ∨
      ∃ s, lead (firstByte c.toNat) = .sequence s ∧ s.Admits c.toNat := by
  have hvalid : c.toNat.isValidChar := c.valid
  by_cases h1 : c.toNat < 0x80
  · left
    unfold lead
    rw [firstByte_of_ascii h1, if_pos h1, Char.ofNat_toNat]
  · have hs : ∃ s, lead (firstByte c.toNat) = .sequence s ∧ groups c.toNat = s.behind + 1 := by
      unfold Nat.isValidChar at hvalid
      unfold firstByte lead
      by_cases h2 : c.toNat < 0x800
      · rw [groups_eq_one_iff.mpr ⟨Nat.le_of_not_lt h1, h2⟩]
        simp only [firstBase]
        rw [if_neg (by omega), if_neg (by omega), if_pos (by omega)]
        exact ⟨_, rfl, rfl⟩
      by_cases h3 : c.toNat < 0x10000
      · rw [groups_eq_two_iff.mpr ⟨Nat.le_of_not_lt h2, h3⟩]
        simp only [firstBase]
        rw [if_neg (by omega), if_neg (by omega), if_neg (by omega), if_pos (by omega)]
        exact ⟨_, rfl, rfl⟩
      · rw [groups_eq_three_iff.mpr (Nat.le_of_not_lt h3)]
        simp only [firstBase]
        rw [if_neg (by omega), if_neg (by omega), if_neg (by omega), if_neg (by omega),
          if_pos (by omega)]
        exact ⟨_, rfl, rfl⟩
    obtain ⟨s, hlead, hg⟩ := hs
    exact Or.inr ⟨s, hlead, (admits_iff_of_lead hlead).mpr ⟨hvalid, hg, rfl⟩⟩

theorem lead_of_begins {b : UInt8} {p : List UInt8} {c : Char}
    (h : b :: p <+: String.utf8EncodeChar c) :
    lead b.toNat = .character c ∨ ∃ s, lead b.toNat = .sequence s ∧ s.Admits c.toNat := by
  rw [utf8EncodeChar_eq, List.cons_prefix_cons] at h
  have hle : firstByte c.toNat ≤ 0xF4 := firstByte_le c.valid
  have hb : b.toNat = firstByte c.toNat := by
    rw [h.1, UInt8.toNat_ofNat']
    omega
  rw [hb]
  exact lead_firstByte c

/-! ## open sequences -/

/-- `s` is open behind the bytes `p`: they begin exactly the characters that `s` admits, and have
none in front -/
structure Opens (p : List UInt8) (s : Sequence) : Prop where
  ne_nil : p ≠ []
  le_high : s.low ≤ s.high
  high_le : s.high ≤ 0xBF
  valid : ∀ n, s.Admits n → n.isValidChar
  admits : ∀ c, p <+: String.utf8EncodeChar c → s.Admits c.toNat
  encode : ∀ c : Char, s.Admits c.toNat →
    String.utf8EncodeChar c = p ++ trailing (s.behind + 1) c.toNat
  no_character : ∀ c, ¬String.utf8EncodeChar c <+: p

theorem bounds_of_lead {b : ℕ} {s : Sequence} (h : lead b = .sequence s) :
    s.low ≤ s.high ∧ s.high ≤ 0xBF := by
  unfold lead at h
  split_ifs at h <;> injection h with hs <;> subst hs <;> dsimp only <;> omega

/-- a byte more does not complete a character if more than that is missing -/
theorem no_character_concat {p : List UInt8} {b : UInt8} {s : Sequence}
    (hp : ∀ c, ¬String.utf8EncodeChar c <+: p)
    (hadmits : ∀ c, p ++ [b] <+: String.utf8EncodeChar c → s.Admits c.toNat)
    (hencode : ∀ c : Char, s.Admits c.toNat →
      String.utf8EncodeChar c = p ++ [b] ++ trailing (s.behind + 1) c.toNat) (c : Char) :
    ¬String.utf8EncodeChar c <+: p ++ [b] := by
  intro h
  rcases List.prefix_concat_iff.mp h with he | hprefix
  · have hmore := hencode c (hadmits c (by rw [he]))
    rw [he] at hmore
    exact List.cons_ne_nil _ _ (List.self_eq_append_right.mp hmore)
  · exact hp c hprefix

theorem opens_of_lead {b : UInt8} {s : Sequence} (h : lead b.toNat = .sequence s) :
    Opens [b] s := by
  have hencode : ∀ c : Char, s.Admits c.toNat →
      String.utf8EncodeChar c = [b] ++ trailing (s.behind + 1) c.toNat := by
    intro c hc
    obtain ⟨-, hg, hfirst⟩ := (admits_iff_of_lead h).mp hc
    rw [utf8EncodeChar_eq, hg, hfirst, UInt8.ofNat_toNat]
    rfl
  have hadmits : ∀ c, [b] <+: String.utf8EncodeChar c → s.Admits c.toNat := by
    intro c hc
    rcases lead_of_begins hc with hlead | ⟨s', hlead, hs'⟩
    · rw [h] at hlead
      cases hlead
    · rw [h] at hlead
      cases hlead
      exact hs'
  have hnil : ∀ c, ¬String.utf8EncodeChar c <+: [] :=
    fun c hc => String.utf8EncodeChar_ne_nil (List.prefix_nil.mp hc)
  exact ⟨List.cons_ne_nil _ _, (bounds_of_lead h).1, (bounds_of_lead h).2,
    fun n hn => ((admits_iff_of_lead h).mp hn).1, hadmits, hencode,
    no_character_concat hnil hadmits hencode⟩

namespace Sequence

theorem advance_of_zero {s : Sequence} (h : s.behind = 0) (b : ℕ) :
    s.advance b = ([Char.ofNat (64 * s.bits + (b - 0x80))], none) := by
  unfold advance
  rw [h]

theorem advance_of_succ {s : Sequence} {k : ℕ} (h : s.behind = k + 1) (b : ℕ) :
    s.advance b = ([], some (s.next b k)) := by
  unfold advance
  rw [h]

theorem low_next_le_high (s : Sequence) {b k : ℕ} : (s.next b k).low ≤ (s.next b k).high :=
  Nat.le_add_right 0x80 0x3F

/-- behind the first two bytes all continuations are admitted -/
theorem admits_next_iff {s : Sequence} {b k n : ℕ} :
    (s.next b k).Admits n ↔ n / 64 ^ (k + 1) = 64 * s.bits + (b - 0x80) := by
  have hlt : n / 64 ^ k % 64 < 64 := Nat.mod_lt _ (by decide)
  constructor
  · exact fun h => h.1
  · refine fun h => ⟨h, Nat.le_add_right _ _, ?_⟩
    show 0x80 + n / 64 ^ k % 64 ≤ 0xBF
    omega

end Sequence

/-- a byte within the bounds is the next one of exactly the characters with these bits -/
theorem admits_and_byte_iff {s : Sequence} (hhigh : s.high ≤ 0xBF) {b n : ℕ} (hlo : s.low ≤ b)
    (hhi : b ≤ s.high) :
    s.Admits n ∧ b = 0x80 + n / 64 ^ s.behind % 64 ↔
      n / 64 ^ s.behind = 64 * s.bits + (b - 0x80) := by
  have hge := s.low_ge
  unfold Sequence.Admits
  rw [pow_succ, ← Nat.div_div_eq_div_mul]
  generalize n / 64 ^ s.behind = m
  omega

namespace Opens

variable {p : List UInt8} {s : Sequence} (h : Opens p s)
include h

/-- what a further byte begins, is an admitted character with that byte -/
theorem begins_concat_iff {b : UInt8} {c : Char} :
    p ++ [b] <+: String.utf8EncodeChar c ↔
      s.Admits c.toNat ∧ b.toNat = 0x80 + c.toNat / 64 ^ s.behind % 64 := by
  have hbyte (n : ℕ) : (UInt8.ofNat (0x80 + n / 64 ^ s.behind % 64)).toNat =
      0x80 + n / 64 ^ s.behind % 64 := by
    rw [UInt8.toNat_ofNat']
    omega
  constructor
  · intro hb
    have hadmits := h.admits c ((List.prefix_append p [b]).trans hb)
    rw [h.encode c hadmits, List.prefix_append_right_inj, trailing_succ,
      List.cons_prefix_cons] at hb
    refine ⟨hadmits, ?_⟩
    rw [hb.1, hbyte]
  · rintro ⟨hadmits, hb⟩
    rw [h.encode c hadmits, List.prefix_append_right_inj, trailing_succ, List.cons_prefix_cons,
      ← UInt8.toNat_inj, hbyte]
    exact ⟨hb, List.nil_prefix⟩

/-- an admitted code point is one of a character -/
theorem encode_ofNat {n : ℕ} (hn : s.Admits n) :
    String.utf8EncodeChar (Char.ofNat n) = p ++ trailing (s.behind + 1) n := by
  have hto : (Char.ofNat n).toNat = n := by rw [Char.toNat_ofNat, if_pos (h.valid n hn)]
  rw [h.encode (Char.ofNat n) (by rwa [hto]), hto]

theorem exists_character : ∃ c, p <+: String.utf8EncodeChar c := by
  have hn : (64 * s.bits + (s.low - 0x80)) * 64 ^ s.behind / 64 ^ s.behind =
      64 * s.bits + (s.low - 0x80) := Nat.mul_div_cancel _ (by positivity)
  obtain ⟨hadmits, -⟩ := (admits_and_byte_iff h.high_le (Nat.le_refl _) h.le_high).mpr hn
  exact ⟨_, h.encode_ofNat hadmits ▸ List.prefix_append p _⟩

section
variable {b : UInt8} (hlo : s.low ≤ b.toNat) (hhi : b.toNat ≤ s.high)
include hlo hhi

/-- the last byte completes a character -/
theorem complete (hbehind : s.behind = 0) :
    String.utf8EncodeChar (Char.ofNat (64 * s.bits + (b.toNat - 0x80))) = p ++ [b] := by
  have hn : (64 * s.bits + (b.toNat - 0x80)) / 64 ^ s.behind = 64 * s.bits + (b.toNat - 0x80) := by
    rw [hbehind, pow_zero, Nat.div_one]
  obtain ⟨hadmits, hb⟩ := (admits_and_byte_iff h.high_le hlo hhi).mpr hn
  rw [h.encode_ofNat hadmits, trailing_succ, ← hb, UInt8.ofNat_toNat, hbehind, trailing_zero]

/-- any other byte within the bounds leaves the sequence open -/
theorem extend {k : ℕ} (hbehind : s.behind = k + 1) : Opens (p ++ [b]) (s.next b.toNat k) := by
  have hiff (n : ℕ) : (s.next b.toNat k).Admits n ↔
      s.Admits n ∧ b.toNat = 0x80 + n / 64 ^ s.behind % 64 := by
    rw [admits_and_byte_iff h.high_le hlo hhi, hbehind, Sequence.admits_next_iff]
  have hadmits : ∀ c, p ++ [b] <+: String.utf8EncodeChar c → (s.next b.toNat k).Admits c.toNat :=
    fun c hc => (hiff _).mpr (h.begins_concat_iff.mp hc)
  have hencode : ∀ c : Char, (s.next b.toNat k).Admits c.toNat →
      String.utf8EncodeChar c = p ++ [b] ++ trailing (k + 1) c.toNat := by
    intro c hc
    obtain ⟨hs, hb⟩ := (hiff _).mp hc
    rw [h.encode c hs, trailing_succ, ← hb, UInt8.ofNat_toNat, hbehind, List.append_assoc]
    rfl
  exact ⟨by simp, s.low_next_le_high, Nat.le_refl _, fun n hn => h.valid n ((hiff n).mp hn).1,
    hadmits, hencode, no_character_concat h.no_character hadmits hencode⟩

end

/-- a byte out of the bounds begins no character with what is in front of it -/
theorem not_begins_concat {b : UInt8} (hb : ¬(s.low ≤ b.toNat ∧ b.toNat ≤ s.high)) (c : Char) :
    ¬p ++ [b] <+: String.utf8EncodeChar c := by
  intro hc
  obtain ⟨⟨-, hlo, hhi⟩, he⟩ := h.begins_concat_iff.mp hc
  rw [← he] at hlo hhi
  exact hb ⟨hlo, hhi⟩

end Opens

end Utf8

end DecimalCalculator
