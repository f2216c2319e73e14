import Mathlib

/-!
# Texts as bytes

A Go string is a sequence of bytes. Code that walks over a string by its index takes a byte for a rune, which
is right for ASCII only: appending such a rune to a string writes its UTF-8 encoding, and that has two bytes
if the byte was not ASCII (`encode`). The tests of package `unicode` see the rune with the number of the byte,
so that some bytes above ASCII count as letters, and two as white space.

Functions that go over the runes of a string, such as `strings.TrimSpace`, see white space in its encoded form
(`spaces`).
-/

namespace DockerEngine

open List

/-- A Go string. -/
abbrev Bytes : Type := List UInt8

instance lawfulBEqBytes : LawfulBEq Bytes := inferInstance

namespace Bytes

/-- The byte of an ASCII character. -/
def ch (c : Char) : UInt8 := UInt8.ofNat c.toNat

/-- The bytes of an ASCII text. -/
def text (s : String) : Bytes := s.toList.map ch

/-- `string(rune(b))`: the UTF-8 encoding of the rune with the number of the byte. -/
def encode (b : UInt8) : Bytes :=
  if b < 128 then [b] else [(0xC0 : UInt8) ||| (b >>> 6), (0x80 : UInt8) ||| (b &&& 0x3F)]

/-- An ASCII letter. -/
def isAsciiLetter (b : UInt8) : Bool := (65 ≤ b && b ≤ 90) || (97 ≤ b && b ≤ 122)

/-- `unicode.IsDigit(rune(b))`. -/
def isDigit (b : UInt8) : Bool := 48 ≤ b && b ≤ 57

/-- `unicode.IsLetter(rune(b))`. -/
def isLetter (b : UInt8) : Bool :=
  isAsciiLetter b || b == 0xAA || b == 0xB5 || b == 0xBA || (0xC0 ≤ b && b != 0xD7 && b != 0xF7)

/-- `unicode.IsSpace(rune(b))`. -/
def isSpace (b : UInt8) : Bool := (9 ≤ b && b ≤ 13) || b == 32 || b == 0x85 || b == 0xA0

/-- The encodings of the white space of Unicode. -/
def spaces : List Bytes :=
  [[9], [10], [11], [12], [13], [32], [0xC2, 0x85], [0xC2, 0xA0], [0xE1, 0x9A, 0x80], [0xE2, 0x80, 0x80],
    [0xE2, 0x80, 0x81], [0xE2, 0x80, 0x82], [0xE2, 0x80, 0x83], [0xE2, 0x80, 0x84], [0xE2, 0x80, 0x85],
    [0xE2, 0x80, 0x86], [0xE2, 0x80, 0x87], [0xE2, 0x80, 0x88], [0xE2, 0x80, 0x89], [0xE2, 0x80, 0x8A],
    [0xE2, 0x80, 0xA8], [0xE2, 0x80, 0xA9], [0xE2, 0x80, 0xAF], [0xE2, 0x81, 0x9F], [0xE3, 0x80, 0x80]]

/-- At most `n` runes of white space removed in front. -/
def dropSpaces : Nat → Bytes → Bytes
  | 0, s => s
  | n + 1, s =>
    match spaces.find? fun p => p.isPrefixOf s with
    | none => s
    | some p => dropSpaces n (s.drop p.length)

/-- At most `n` runes of white space removed at the end. -/
def dropLastSpaces : Nat → Bytes → Bytes
  | 0, s => s
  | n + 1, s =>
    match spaces.find? fun p => p.isSuffixOf s with
    | none => s
    | some p => dropLastSpaces n (s.take (s.length - p.length))

/-- `strings.TrimLeftFunc(s, unicode.IsSpace)`. -/
def trimLeft (s : Bytes) : Bytes := dropSpaces s.length s

/-- `strings.TrimRightFunc(s, unicode.IsSpace)`. -/
def trimRight (s : Bytes) : Bytes := dropLastSpaces s.length s

/-- `strings.TrimSpace`. -/
def trimSpace (s : Bytes) : Bytes := trimRight (trimLeft s)

/-- The text before the first `c` and the text behind it, if there is a `c`. -/
def cut (c : UInt8) : Bytes → Option (Bytes × Bytes)
  | [] => none
  | b :: s => if b = c then some ([], s) else (cut c s).map fun p => (b :: p.1, p.2)

variable {c : UInt8}

theorem cut_append {n : Bytes} (h : c ∉ n) (v : Bytes) : cut c (n ++ c :: v) = some (n, v) := by
  induction n with
  | nil => rw [nil_append, cut, if_pos rfl]
  | cons b n ih =>
    rw [mem_cons, not_or] at h
    rw [cons_append, cut, if_neg fun hb => h.1 hb.symm, ih h.2]
    rfl

variable {s : Bytes}

theorem cut_eq_none (h : c ∉ s) : cut c s = none := by
  induction s with
  | nil => rfl
  | cons b s ih =>
    rw [mem_cons, not_or] at h
    rw [cut, if_neg fun hb => h.1 hb.symm, ih h.2]
    rfl

/-- A text either has no `c`, or is cut at the first one. -/
theorem cut_cases (c : UInt8) (s : Bytes) :
    (c ∉ s ∧ cut c s = none) ∨ ∃ n v, s = n ++ c :: v ∧ c ∉ n ∧ cut c s = some (n, v) := by
  by_cases h : c ∈ s
  · obtain ⟨n, v, hs, hn⟩ := eq_append_cons_of_mem h
    exact .inr ⟨n, v, hs, hn, hs ▸ cut_append hn v⟩
  · exact .inl ⟨h, cut_eq_none h⟩

variable {b : UInt8}

/-- What is said of single bytes can be decided byte by byte. -/
@[elab_as_elim]
theorem byte_cases {P : UInt8 → Prop} (b : UInt8) (h : ∀ n : Fin 256, P (UInt8.ofFin n)) : P b := h b.toFin

theorem isAsciiLetter_lt : isAsciiLetter b → b < 128 := byte_cases b (by decide +kernel)

theorem isDigit_lt : isDigit b → b < 128 := byte_cases b (by decide +kernel)

theorem isAsciiLetter_not_digit : isAsciiLetter b → isDigit b = false := byte_cases b (by decide +kernel)

/-! ## Encoding -/

theorem encode_ascii (h : b < 128) : encode b = [b] := if_pos h

theorem length_encode (h : ¬ b < 128) : (encode b).length = 2 := by
  rw [encode, if_neg h]
  rfl

/-- Text that is written rune by rune: it stays as it is if it is ASCII, and gets longer if it is not. -/
theorem flatMap_encode_ascii (h : ∀ b ∈ s, b < 128) : s.flatMap encode = s := by
  induction s with
  | nil => rfl
  | cons b s ih =>
    rw [flatMap_cons, encode_ascii (h b (by simp)), ih (forall_mem_cons.mp h).2]
    rfl

theorem length_flatMap_encode (s : Bytes) : s.length ≤ (s.flatMap encode).length := by
  induction s with
  | nil => simp
  | cons b s ih =>
    rw [flatMap_cons, length_append, length_cons]
    by_cases hb : b < 128
    · rw [encode_ascii hb, length_singleton]
      omega
    · rw [length_encode hb]
      omega

theorem length_flatMap_encode_lt (hmem : b ∈ s) (hb : ¬ b < 128) : s.length < (s.flatMap encode).length := by
  obtain ⟨l, r, rfl⟩ := append_of_mem hmem
  have hl := length_flatMap_encode l
  have hr := length_flatMap_encode r
  simp only [flatMap_append, flatMap_cons, length_append, length_cons, length_encode hb]
  omega

/-! ## Trimming -/

variable {p : Bytes}

theorem spaces_ne_nil (hp : p ∈ spaces) : p ≠ [] := by
  revert p
  decide

/-- Nothing is left of the white space in front. -/
theorem dropSpaces_begins {n : Nat} (hn : s.length ≤ n) (hp : p ∈ spaces) : ¬ p <+: dropSpaces n s := by
  induction n generalizing s with
  | zero =>
    have hs : s = [] := eq_nil_of_length_eq_zero (by omega)
    rw [hs]
    intro h
    exact spaces_ne_nil hp (prefix_nil.mp h)
  | succ n ih =>
    rw [dropSpaces]
    split
    next hnone =>
      have hno := find?_eq_none.mp hnone p hp
      rwa [ isPrefixOf_iff_prefix] at hno
    next q hq =>
      refine ih ?_
      have hlen := length_pos_of_ne_nil (spaces_ne_nil (mem_of_find?_eq_some hq))
      rw [length_drop]
      omega

theorem trimLeft_begins (hp : p ∈ spaces) : ¬ p <+: trimLeft s := dropSpaces_begins (Nat.le_refl _) hp

theorem dropSpaces_suffix (n : Nat) (s : Bytes) : dropSpaces n s <:+ s := by
  induction n generalizing s with
  | zero => exact suffix_rfl
  | succ n ih =>
    rw [dropSpaces]
    split
    · exact suffix_rfl
    · exact (ih _).trans (drop_suffix _ _)

theorem dropLastSpaces_begins (n : Nat) (s : Bytes) : dropLastSpaces n s <+: s := by
  induction n generalizing s with
  | zero => exact prefix_rfl
  | succ n ih =>
    rw [dropLastSpaces]
    split
    · exact prefix_rfl
    · exact (ih _).trans ( take_prefix _ _)

/-- A text that is nothing but white space begins with white space. -/
theorem dropLastSpaces_eq_nil {n : Nat} (h : dropLastSpaces n s = []) : s = [] ∨ ∃ p ∈ spaces, p <+: s := by
  induction n generalizing s with
  | zero => exact .inl h
  | succ n ih =>
    rw [dropLastSpaces] at h
    split at h
    · exact .inl h
    next p hp =>
    obtain ⟨t, rfl⟩ : p <:+ s := isSuffixOf_iff_suffix.mp (find?_some hp :)
    have hmem := mem_of_find?_eq_some hp
    rw [length_append, Nat.add_sub_cancel, take_left] at h
    rcases ih h with rfl | ⟨q, hq, hqt⟩
    · exact .inr ⟨p, hmem, prefix_rfl⟩
    · exact .inr ⟨q, hq, hqt.trans (prefix_append t p)⟩

/-- Trimming at the end leaves the beginning of a text that does not begin with white space. -/
theorem head_trimSpace (s : Bytes) : (trimSpace s).head? = (trimLeft s).head? := by
  obtain ⟨t, ht⟩ := dropLastSpaces_begins (trimLeft s).length (trimLeft s)
  change trimSpace s ++ t = trimLeft s at ht
  cases hs : trimSpace s with
  | cons c u =>
    rw [hs] at ht
    rw [← ht]
    rfl
  | nil =>
    rcases dropLastSpaces_eq_nil hs with h | ⟨p, hp, hpre⟩
    · rw [h]
    · exact (trimLeft_begins hp hpre).elim

theorem length_trimSpace_le (s : Bytes) : (trimSpace s).length ≤ s.length :=
  Nat.le_trans (dropLastSpaces_begins _ _).length_le (dropSpaces_suffix _ _).length_le

end Bytes

end DockerEngine
