import DockerEngine.Lib.Bytes

/-!
# UTF-8

A byte string that need not be UTF-8, read rune by rune as Go does: where no encoding of a character begins, one byte
is passed over and stands for `U+FFFD`. `runes` is that reading.

**The law** (`repaired_eq`): reading from left to right finds every character there is. A byte is part of valid UTF-8
if some encoded character stands over it, wherever it may begin (`Valid`); the bytes that are passed over are the
others. The reason is that the first byte of an encoding is never a later byte of one, so that no two encodings
overlap.
-/

namespace DockerEngine.Utf8

open List Nat UInt8

/-! ## One character -/

/-- The encoding of a character. -/
abbrev encode (c : Char) : Bytes := String.utf8EncodeChar c

/-- The character whose encoding a text begins with. -/
def decode (s : Bytes) : Option Char := s.toByteArray.utf8DecodeChar? 0

/-- `utf8.RuneError`. -/
def runeError : Char := '\uFFFD'

/-- `utf8.DecodeRune`. -/
def decodeRune (s : Bytes) : Char × Nat :=
  match decode s with
  | some c => (c, (encode c).length)
  | none => (runeError, if s = [] then 0 else 1)

variable (c : Char)

theorem length_encode_pos : 0 < (encode c).length := by
  rw [String.length_utf8EncodeChar]
  exact c.utf8Size_pos

variable {s : Bytes}

theorem decodeRune_pos (h : s ≠ []) : 0 < (decodeRune s).2 := by
  rw [decodeRune]
  split
  next c _ => exact length_encode_pos c
  next => rw [if_neg h]; exact Nat.one_pos

theorem decode_encode (s : Bytes) : decode (encode c ++ s) = some c := by
  rw [decode, toByteArray_append]
  exact ByteArray.utf8DecodeChar?_utf8EncodeChar_append

variable {c : Char}

theorem eq_of_decode (h : decode s = some c) : ∃ t, s = encode c ++ t := by
  obtain ⟨l, hl⟩ := ByteArray.exists_of_utf8DecodeChar?_eq_some h
  refine ⟨l.data.toList, ?_⟩
  have hdata := congrArg (fun b : ByteArray => b.data.toList) hl
  simpa using hdata

variable {t : Bytes}

/-- A text begins with at most one character. -/
theorem encode_append_inj {d : Char} (h : encode c ++ s = encode d ++ t) : c = d := by
  have hdecode := decode_encode c s
  rw [h, decode_encode] at hdecode
  exact (Option.some.inj hdecode).symm

/-- The character of an ASCII byte. -/
def ascii (b : UInt8) : Char := Char.ofNat b.toNat

variable {b : UInt8}

theorem ascii_cases {P : UInt8 → Prop} (h : ∀ n : Fin 128, P (UInt8.ofNat n)) (hb : b < 128) : P b := by
  have hlt : b.toNat < 128 := UInt8.lt_iff_toNat_lt.mp hb
  have := h ⟨b.toNat, hlt⟩
  rwa [UInt8.ofNat_toNat] at this

theorem encode_ascii (hb : b < 128) : encode (ascii b) = [b] :=
  ascii_cases (P := fun b => encode (ascii b) = [b]) (by decide +kernel) hb

theorem le_or {k : UInt8} (x y : UInt8) (h : k ≤ y) : k ≤ x ||| y := by
  rw [le_iff_toNat_le] at h ⊢
  rw [UInt8.toNat_or]
  exact Nat.le_trans h Nat.right_le_or

/-- A character that is not a control character has no control byte. -/
theorem le_of_mem_encode (hc : ' ' ≤ c) : ∀ b ∈ encode c, 0x20 ≤ b := by
  have hsize := c.utf8Size_le_four
  have hpos := c.utf8Size_pos
  show ∀ b ∈ String.utf8EncodeChar c, 0x20 ≤ b
  obtain h | h | h | h : c.utf8Size = 1 ∨ c.utf8Size = 2 ∨ c.utf8Size = 3 ∨ c.utf8Size = 4 := by omega
  · rw [String.utf8EncodeChar_eq_singleton h]
    intro b hb
    rw [mem_singleton.mp hb, le_iff_toNat_le, UInt32.toNat_toUInt8]
    have hle : c.val.toNat ≤ 127 := UInt32.le_iff_toNat_le.mp (Char.utf8Size_eq_one_iff.mp h)
    rw [mod_eq_of_lt (by omega)]
    exact UInt32.le_iff_toNat_le.mp hc
  · rw [String.utf8EncodeChar_eq_cons_cons h]
    simp [le_or]
  · rw [String.utf8EncodeChar_eq_cons_cons_cons h]
    simp [le_or]
  · rw [String.utf8EncodeChar_eq_cons_cons_cons_cons h]
    simp [le_or]

/-! ## A text -/

/-- The runes of a text. A byte at which no character begins is `none`. -/
def runes (s : Bytes) : List (Option Char) :=
  match s with
  | [] => []
  | b :: t =>
    match decode (b :: t) with
    | some c => some c :: runes ((b :: t).drop (encode c).length)
    | none => none :: runes t
termination_by s.length
decreasing_by
  · have := length_encode_pos c
    simp only [length_drop, length_cons]
    omega
  · simp

/-- The bytes of a text of characters. -/
def encodeText (cs : List Char) : Bytes := cs.flatMap encode

/-- The characters of a text that is all UTF-8. -/
def decodeText (s : Bytes) : Option (List Char) := (runes s).mapM id

theorem runes_encode (c : Char) (s : Bytes) : runes (encode c ++ s) = some c :: runes s := by
  cases henc : encode c ++ s with
  | nil =>
    have := length_encode_pos c
    simp only [append_eq_nil_iff] at henc
    simp [henc.1] at this
  | cons b t =>
    rw [runes, ← henc, decode_encode]
    simp

theorem runes_bad (h : decode (b :: s) = none) : runes (b :: s) = none :: runes s := by
  rw [runes, h]

/-- Induction along the reading of a text. -/
theorem reading {P : Bytes → Prop} (nil : P []) (char : ∀ c s, P s → P (encode c ++ s))
    (bad : ∀ b s, decode (b :: s) = none → P s → P (b :: s)) (s : Bytes) : P s := by
  induction hn : s.length using Nat.strongRecOn generalizing s with
  | _ n ih =>
    cases s with
    | nil => exact nil
    | cons b t =>
      cases hdecode : decode (b :: t) with
      | none => exact bad b t hdecode (ih t.length (by simp [← hn]) t rfl)
      | some c =>
        obtain ⟨u, hu⟩ := eq_of_decode hdecode
        have hpos := length_encode_pos c
        rw [hu, length_append] at hn
        rw [hu]
        exact char c u (ih u.length (by omega) u rfl)

theorem encodeText_append (cs ds : List Char) : encodeText (cs ++ ds) = encodeText cs ++ encodeText ds :=
  flatMap_append

theorem runes_encodeText (cs : List Char) : runes (encodeText cs) = cs.map some := by
  induction cs with
  | nil => rw [encodeText, flatMap_nil, runes, map_nil]
  | cons c cs ih =>
    rw [encodeText, flatMap_cons, runes_encode, map_cons]
    exact congrArg _ ih

theorem decodeText_encodeText (cs : List Char) : decodeText (encodeText cs) = some cs := by
  rw [decodeText, runes_encodeText]
  induction cs with
  | nil => rfl
  | cons c cs ih => simp [ih]

theorem encodeText_of_decodeText {cs : List Char} (h : decodeText s = some cs) : s = encodeText cs := by
  induction s using reading generalizing cs with
  | nil =>
    rw [decodeText, runes] at h
    cases h
    rfl
  | char c s ih =>
    rw [decodeText, runes_encode, mapM_cons] at h
    obtain ⟨ds, hds, rfl⟩ : ∃ ds, decodeText s = some ds ∧ c :: ds = cs := by
      simpa [decodeText, Option.bind_eq_some_iff] using h
    rw [encodeText, flatMap_cons, ih hds]
    rfl
  | bad b s hbad ih =>
    rw [decodeText, runes_bad hbad, mapM_cons] at h
    simp at h

/-- A text with `U+FFFD` for what is not UTF-8. -/
def repair (s : Bytes) : List Char := (runes s).map fun r => r.getD runeError

theorem decodeText_encode (c : Char) (s : Bytes) : decodeText (encode c ++ s) = (decodeText s).map (c :: ·) := by
  rw [decodeText, runes_encode, mapM_cons, decodeText]
  cases (runes s).mapM id with
  | none => rfl
  | some cs => rfl

theorem decodeText_append (cs : List Char) (s : Bytes) :
    decodeText (encodeText cs ++ s) = (decodeText s).map (cs ++ ·) := by
  induction cs with
  | nil =>
    cases h : decodeText s with
    | none => exact h
    | some ds => exact h
  | cons c cs ih =>
    rw [encodeText, flatMap_cons, append_assoc, decodeText_encode]
    rw [encodeText] at ih
    rw [ih, Option.map_map]
    rfl

theorem length_le_repair (s : Bytes) : s.length ≤ (encodeText (repair s)).length := by
  induction s using reading with
  | nil => exact zero_le _
  | char c s ih =>
    rw [repair, runes_encode, map_cons, encodeText, flatMap_cons, length_append, length_append]
    exact Nat.add_le_add_left ih _
  | bad b s hbad ih =>
    rw [repair, runes_bad hbad, map_cons, encodeText, flatMap_cons, length_append, length_cons,
      Nat.add_comm]
    exact Nat.add_le_add (length_encode_pos _) ih

/-- **Only UTF-8 is left as it is.** -/
theorem encodeText_repair_iff : encodeText (repair s) = s ↔ decodeText s ≠ none := by
  constructor
  · induction s using reading with
    | nil => exact fun _ h => by simp [decodeText, runes] at h
    | char c s ih =>
      intro h
      have htail : encode c ++ encodeText (repair s) = encode c ++ s := by
        rwa [repair, runes_encode, map_cons, encodeText, flatMap_cons] at h
      rw [decodeText_encode, ne_eq, Option.map_eq_none_iff]
      exact ih (append_cancel_left htail)
    | bad b s hbad ih =>
      intro h
      have hlength := congrArg length h
      rw [repair, runes_bad hbad, map_cons, encodeText, flatMap_cons, length_append,
        length_cons] at hlength
      have hthree : (encode runeError).length = 3 := by decide
      have hle := length_le_repair s
      rw [encodeText] at hle
      simp only [Option.getD_none, hthree] at hlength
      rw [repair] at hle
      omega
  · intro h
    obtain ⟨cs, hcs⟩ := Option.ne_none_iff_exists'.mp h
    have hs := encodeText_of_decodeText hcs
    rw [hs, repair, runes_encodeText, map_map]
    congr 1
    exact map_id' cs

/-! ## What is valid -/

/-- The byte at place `i` is part of valid UTF-8: an encoded character stands over it. -/
def Valid (s : Bytes) (i : Nat) : Prop :=
  ∃ front c back, s = front ++ (encode c ++ back) ∧ front.length ≤ i ∧ i < front.length + (encode c).length

open Classical in
/-- The byte at a place, if it is part of valid UTF-8, and `U+FFFD` otherwise. -/
noncomputable def place (s : Bytes) (i : Nat) : Bytes := if Valid s i then s[i]?.toList else encode runeError

/-- A text with each byte that is not part of valid UTF-8 replaced by `U+FFFD`. -/
noncomputable def repaired (s : Bytes) : Bytes := (range s.length).flatMap (place s)

variable {i : Nat}

theorem place_of_valid (h : Valid s i) : place s i = s[i]?.toList := if_pos h

theorem place_of_not_valid (h : ¬ Valid s i) : place s i = encode runeError := if_neg h

theorem place_congr {j : Nat} (hvalid : Valid s i ↔ Valid t j) (hget : s[i]? = t[j]?) : place s i = place t j := by
  by_cases h : Valid t j
  · rw [place_of_valid h, place_of_valid (hvalid.mpr h), hget]
  · rw [place_of_not_valid h, place_of_not_valid (fun hs => h (hvalid.mp hs))]

/-- An encoding begins within another one only at its first byte. -/
theorem front_eq_nil {d : Char} {front : Bytes} (h : encode c ++ s = front ++ (encode d ++ t))
    (hlt : front.length < (encode c).length) : front = [] := by
  have hpos := length_encode_pos d
  have hbyte : (encode c)[front.length]? = (encode d)[0]? := by
    have hget := congrArg (fun l => l[front.length]?) h
    simpa [getElem?_append_left hlt, getElem?_append_right, getElem?_append_left hpos] using hget
  rw [getElem?_eq_getElem hlt, getElem?_eq_getElem hpos, Option.some.injEq] at hbyte
  have hfirst : ((encode d)[0]).IsUTF8FirstByte := isUTF8FirstByte_getElem_utf8EncodeChar.mpr rfl
  rw [← hbyte] at hfirst
  exact length_eq_zero_iff.mp (isUTF8FirstByte_getElem_utf8EncodeChar.mp hfirst)

theorem Valid.append (h : Valid s i) (front : Bytes) : Valid (front ++ s) (front.length + i) := by
  obtain ⟨front', c, back, rfl, hle, hlt⟩ := h
  refine ⟨front ++ front', c, back, by rw [append_assoc], ?_, ?_⟩
  · rw [length_append]
    omega
  · rw [length_append]
    omega

theorem valid_encode (hi : i < (encode c).length) : Valid (encode c ++ s) i :=
  ⟨[], c, s, rfl, Nat.zero_le i, by rwa [length_nil, Nat.zero_add]⟩

theorem valid_encode_add : Valid (encode c ++ s) ((encode c).length + i) ↔ Valid s i := by
  refine ⟨?_, fun h => h.append (encode c)⟩
  rintro ⟨front, d, back, hs, hle, hlt⟩
  by_cases hfront : front.length < (encode c).length
  · obtain rfl := front_eq_nil hs hfront
    rw [nil_append] at hs
    rw [encode_append_inj hs, length_nil] at hlt
    omega
  · -- the other character stands behind this one
    obtain ⟨rest, rfl⟩ : encode c <+: front := prefix_of_prefix_length_le ⟨s, rfl⟩ ⟨_, hs.symm⟩ (by omega)
    rw [append_assoc, append_cancel_left_eq] at hs
    rw [length_append] at hle hlt
    exact ⟨rest, d, back, hs, by omega, by omega⟩

theorem not_valid_bad (h : decode (b :: s) = none) : ¬ Valid (b :: s) 0 := by
  rintro ⟨front, c, back, hs, hle, -⟩
  rw [length_eq_zero_iff.mp (le_zero.mp hle), nil_append] at hs
  rw [hs, decode_encode] at h
  cases h

theorem valid_bad_succ (h : decode (b :: s) = none) : Valid (b :: s) (i + 1) ↔ Valid s i := by
  constructor
  · rintro ⟨front, c, back, hs, hle, hlt⟩
    cases front with
    | nil =>
      rw [hs, nil_append, decode_encode] at h
      cases h
    | cons b' front =>
      obtain ⟨-, rfl⟩ := cons.inj hs
      rw [length_cons] at hle hlt
      exact ⟨front, c, back, rfl, by omega, by omega⟩
  · intro hvalid
    have := hvalid.append [b]
    rwa [length_singleton, Nat.add_comm, singleton_append] at this

theorem flatMap_getElem_range (s : Bytes) : (range s.length).flatMap (fun i => s[i]?.toList) = s := by
  induction s with
  | nil => rfl
  | cons b s ih =>
    rw [length_cons, range_succ_eq_map, flatMap_cons, flatMap_map]
    exact congrArg (b :: ·) ih

theorem repaired_encode (c : Char) (s : Bytes) : repaired (encode c ++ s) = encode c ++ repaired s := by
  rw [repaired, length_append, range_add, flatMap_append, flatMap_map]
  congr 1
  · calc (range (encode c).length).flatMap (place (encode c ++ s))
        = (range (encode c).length).flatMap fun i => (encode c)[i]?.toList :=
          flatMap_congr fun i hi => by
            have hlt := mem_range.mp hi
            rw [place_of_valid (valid_encode hlt), getElem?_append_left hlt]
      _ = encode c := flatMap_getElem_range (encode c)
  · refine flatMap_congr fun i _ => place_congr valid_encode_add ?_
    rw [getElem?_append_right (Nat.le_add_right _ i), Nat.add_sub_cancel_left]

theorem repaired_bad (h : decode (b :: s) = none) : repaired (b :: s) = encode runeError ++ repaired s := by
  rw [repaired, length_cons, range_succ_eq_map, flatMap_cons, place_of_not_valid (not_valid_bad h),
    flatMap_map]
  exact congrArg _ (flatMap_congr fun i _ => place_congr (valid_bad_succ h) rfl)

/-- **Reading from left to right finds the valid bytes.** -/
theorem repaired_eq (s : Bytes) : repaired s = (runes s).flatMap fun r => encode (r.getD runeError) := by
  induction s using reading with
  | nil => simp [repaired, runes]
  | char c s ih => rw [repaired_encode, runes_encode, flatMap_cons, ih, Option.getD_some]
  | bad b s hbad ih => rw [repaired_bad hbad, runes_bad hbad, flatMap_cons, ih, Option.getD_none]

end DockerEngine.Utf8
