import DockerEngine.Lib.Utf8

/-!
# JSON objects of strings

A decoder for JSON texts that are one object whose members are strings. A text is UTF-8; within a string a character
stands for itself or is escaped, and `\u` gives one unit of UTF-16, so that two of them may be one character (`join`).
What a decoder reads first does not depend on what follows (`string_append`), and a string has no control
characters (`le_of_mem_string`).

Values other than strings are not read.
-/

namespace DockerEngine.Json

open Utf8 List Option

/-! ## Strings -/

/-- A part of a string: a character, as it is or after a backslash, or a unit of UTF-16. -/
inductive Item where
  | char (c : Char)
  | code (n : Nat)
  deriving DecidableEq, Repr

/-- The value of a hexadecimal digit. -/
def hexValue (c : Char) : Option Nat :=
  if '0' ≤ c ∧ c ≤ '9' then some (c.toNat - 48)
  else if 'a' ≤ c ∧ c ≤ 'f' then some (c.toNat - 87)
  else if 'A' ≤ c ∧ c ≤ 'F' then some (c.toNat - 55)
  else none

/-- The value of four hexadecimal digits. -/
def hexValue4 (a b c d : Char) : Option Nat := do
  let a ← hexValue a
  let b ← hexValue b
  let c ← hexValue c
  let d ← hexValue d
  return ((a * 16 + b) * 16 + c) * 16 + d

/-- What a character after a backslash stands for. -/
def unescape (c : Char) : Option Char :=
  if c = '"' ∨ c = '\\' ∨ c = '/' then some c
  else if c = 'b' then some '\x08'
  else if c = 'f' then some '\x0c'
  else if c = 'n' then some '\n'
  else if c = 'r' then some '\r'
  else if c = 't' then some '\t'
  else none

/-- One more part in front of what was read. -/
def push (i : Item) : List Item × List Char → List Item × List Char := fun (is, rest) => (i :: is, rest)

/-- The parts of a string whose opening quote was read, and what follows it. -/
def body : List Char → Option (List Item × List Char)
  | '"' :: t => some ([], t)
  | '\\' :: 'u' :: x :: y :: z :: w :: t => (hexValue4 x y z w).bind fun n => (body t).map (push (.code n))
  | '\\' :: e :: t => (unescape e).bind fun c => (body t).map (push (.char c))
  | c :: t => if c < ' ' then none else (body t).map (push (.char c))
  | [] => none

/-- The first unit of a pair. -/
def isHigh (n : Nat) : Bool := 0xD800 ≤ n && n < 0xDC00

/-- The second unit of a pair. -/
def isLow (n : Nat) : Bool := 0xDC00 ≤ n && n < 0xE000

/-- The characters that the parts stand for. A unit that is half a pair is replaced. -/
def join : List Item → List Char
  | [] => []
  | .char c :: is => c :: join is
  | .code n :: is =>
    if isHigh n then
      match is with
      | .code m :: is' =>
        if isLow m then Char.ofNat (0x10000 + (n - 0xD800) * 0x400 + (m - 0xDC00)) :: join is'
        else runeError :: join (.code m :: is')
      | is => runeError :: join is
    else if isLow n then runeError :: join is
    else Char.ofNat n :: join is

/-- A string and what follows it. -/
def string : List Char → Option (List Char × List Char)
  | '"' :: t => (body t).map fun (is, rest) => (join is, rest)
  | _ => none

/-! ## Objects -/

/-- White space between the parts of an object. -/
def isSpace (c : Char) : Bool := c = ' ' ∨ c = '\t' ∨ c = '\n' ∨ c = '\r'

/-- White space removed in front. -/
def skip (cs : List Char) : List Char := cs.dropWhile isSpace

/-- One character that has to come next. -/
def expect (c : Char) : List Char → Option (List Char)
  | [] => none
  | d :: t => if d = c then some t else none

/-- A member of an object, and what follows it and the white space behind it. -/
def member (cs : List Char) : Option ((List Char × List Char) × List Char) := do
  let (key, cs) ← string (skip cs)
  let cs ← expect ':' (skip cs)
  let (value, cs) ← string (skip cs)
  return ((key, value), skip cs)

/-- At most `n` members, up to the closing brace, and what follows it. -/
def members : Nat → List Char → Option (List (List Char × List Char) × List Char)
  | 0, _ => none
  | n + 1, cs =>
    match member cs with
    | some (m, ',' :: cs) => (members n cs).map fun (ms, rest) => (m :: ms, rest)
    | some (m, '\x7d' :: cs) => some ([m], cs)
    | _ => none

/-- An object and what follows it. -/
def object (cs : List Char) : Option (List (List Char × List Char) × List Char) := do
  let cs ← expect '\x7b' (skip cs)
  match skip cs with
  | '\x7d' :: cs => some ([], cs)
  | cs => members cs.length cs

/-- A text that is one string, with nothing around it. -/
def decodeString (s : Bytes) : Option Bytes := do
  let cs ← decodeText s
  match string cs with
  | some (value, []) => some (encodeText value)
  | _ => none

/-- A text that is one object. -/
def decodeObject (s : Bytes) : Option (List (Bytes × Bytes)) := do
  let cs ← decodeText s
  let (ms, rest) ← object cs
  if skip rest = [] then some (ms.map fun m => (encodeText m.1, encodeText m.2)) else none

/-! ## What the parts of a string look like -/

/-- The characters that are written for a part of a string. -/
inductive Piece : List Char → Item → Prop where
  | char {c : Char} (hquote : c ≠ '"') (hback : c ≠ '\\') (hc : ¬ c < ' ') : Piece [c] (.char c)
  | escape {e c : Char} (h : unescape e = some c) : Piece ['\\', e] (.char c)
  | code {x y z w : Char} {n : Nat} (h : hexValue4 x y z w = some n) : Piece ['\\', 'u', x, y, z, w] (.code n)

variable {cs : List Char}

theorem Piece.body {i : Item} (h : Piece cs i) (t : List Char) : body (cs ++ t) = (body t).map (push i) := by
  cases h with
  | @char c hquote hback hc =>
    rw [singleton_append, Json.body, if_neg hc]
    · exact hquote
    · exact fun x y z w t h => absurd h hback
    · exact fun e t h => absurd h hback
  | @escape e c he =>
    have hu : e ≠ 'u' := by
      rintro rfl
      simp [unescape] at he
    show Json.body ('\\' :: e :: t) = _
    rw [Json.body, he, bind_some]
    exact fun x y z w t h => absurd h hu
  | @code x y z w n hn =>
    show (hexValue4 x y z w).bind (fun n => (Json.body t).map (push (.code n))) = _
    rw [hn, bind_some]

variable {rest : List Char} {is : List Item}

/-- The first part of a string. -/
theorem body_eq_some (h : body cs = some (is, rest)) : (is = [] ∧ cs = '"' :: rest) ∨
      ∃ front i is' t, Piece front i ∧ cs = front ++ t ∧ is = i :: is' ∧ body t = some (is', rest) := by
  fun_cases body cs with
  | case1 t =>
    cases h
    exact .inl ⟨rfl, rfl⟩
  | case2 x y z w t =>
    obtain ⟨n, hn, hrest⟩ := bind_eq_some_iff.mp h
    obtain ⟨⟨is', rest'⟩, hbody, hpush⟩ := map_eq_some_iff.mp hrest
    cases hpush
    exact .inr ⟨_, _, _, t, .code hn, rfl, rfl, hbody⟩
  | case3 e t hu =>
    rw [body] at h
    · obtain ⟨c, hc, hrest⟩ := bind_eq_some_iff.mp h
      obtain ⟨⟨is', rest'⟩, hbody, hpush⟩ := map_eq_some_iff.mp hrest
      cases hpush
      exact .inr ⟨_, _, _, t, .escape hc, rfl, rfl, hbody⟩
    · exact hu
  | case4 c t hquote hu hback hlt =>
    rw [body, if_pos hlt] at h
    · cases h
    · exact hquote
    · exact hu
    · exact hback
  | case5 c t hquote hu hback hlt =>
    rw [body, if_neg hlt] at h
    · obtain ⟨⟨is', rest'⟩, hbody, hpush⟩ := map_eq_some_iff.mp h
      cases hpush
      refine .inr ⟨_, _, _, t, .char hquote ?_ hlt, rfl, rfl, hbody⟩
      rintro rfl
      cases t with
      | nil => cases hbody
      | cons e t => exact hback e t rfl rfl
    · exact hquote
    · exact hu
    · exact hback
  | case6 => cases h

/-- **The grammar of strings**: pieces up to a quote. -/
theorem body_iff :
    body cs = some (is, rest) ↔ ∃ fronts, List.Forall₂ Piece fronts is ∧ cs = fronts.flatten ++ '"' :: rest := by
  constructor
  · intro h
    induction is generalizing cs with
    | nil =>
      obtain ⟨-, rfl⟩ | ⟨_, _, _, _, -, -, hnil, -⟩ := body_eq_some h
      · exact ⟨[], .nil, rfl⟩
      · cases hnil
    | cons i is ih =>
      obtain ⟨hnil, -⟩ | ⟨front, i', is', t, hpiece, rfl, heq, hbody⟩ := body_eq_some h
      · cases hnil
      · cases heq
        obtain ⟨fronts, hfronts, rfl⟩ := ih hbody
        exact ⟨front :: fronts, .cons hpiece hfronts, by rw [flatten_cons, append_assoc]⟩
  · rintro ⟨fronts, hfronts, rfl⟩
    induction hfronts with
    | nil => rfl
    | cons hpiece _ ih =>
      rw [flatten_cons, append_assoc, hpiece.body, ih]
      rfl

variable {c : Char}

theorem le_of_unescape {e : Char} (h : unescape e = some c) : ' ' ≤ e := by
  by_contra hlt
  have hne : ∀ d : Char, ' ' ≤ d → e ≠ d := fun d hd he => hlt (he ▸ hd)
  simp [unescape, hne] at h

theorem le_of_hexValue {n : Nat} (h : hexValue c = some n) : ' ' ≤ c := by
  have hle : ∀ d : Char, ' ' ≤ d → d ≤ c → ' ' ≤ c := fun d => Char.le_trans
  rw [hexValue] at h
  split at h
  next hc => exact hle '0' (by decide) hc.1
  next =>
    split at h
    next hc => exact hle 'a' (by decide) hc.1
    next =>
      split at h
      next hc => exact hle 'A' (by decide) hc.1
      next => cases h

theorem Piece.le {i : Item} (h : Piece cs i) : ∀ c ∈ cs, ' ' ≤ c := by
  cases h with
  | char _ _ hc => simpa using hc
  | escape he => simp [le_of_unescape he]
  | @code x y z w n hn =>
    simp only [hexValue4, bind_eq_bind, bind_eq_some_iff] at hn
    obtain ⟨_, hx, _, hy, _, hz, _, hw, -⟩ := hn
    simp [le_of_hexValue hx, le_of_hexValue hy, le_of_hexValue hz, le_of_hexValue hw]

/-! ## What follows a string -/

variable {value : List Char}

theorem string_iff :
    string cs = some (value, rest) ↔ ∃ is t, cs = '"' :: t ∧ body t = some (is, rest) ∧ join is = value := by
  constructor
  · intro h
    fun_cases string cs with
    | case1 t =>
      obtain ⟨⟨is, rest'⟩, hbody, heq⟩ := map_eq_some_iff.mp h
      cases heq
      exact ⟨is, t, rfl, hbody, rfl⟩
    | case2 => simp [string] at h
  · rintro ⟨is, t, rfl, hbody, rfl⟩
    rw [string, hbody, map_some]

/-- What follows a string does not change how it is read. -/
theorem string_append (h : string cs = some (value, rest)) (more : List Char) :
    string (cs ++ more) = some (value, rest ++ more) := by
  obtain ⟨is, t, rfl, hbody, rfl⟩ := string_iff.mp h
  obtain ⟨fronts, hfronts, rfl⟩ := body_iff.mp hbody
  refine string_iff.mpr ⟨is, _, rfl, body_iff.mpr ⟨fronts, hfronts, ?_⟩, rfl⟩
  simp

/-- A string has no control characters. -/
theorem le_of_mem_string (h : string cs = some (value, rest)) : ∀ c ∈ cs, ' ' ≤ c ∨ c ∈ rest := by
  obtain ⟨is, t, rfl, hbody, rfl⟩ := string_iff.mp h
  obtain ⟨fronts, hfronts, rfl⟩ := body_iff.mp hbody
  have hle : ∀ c ∈ fronts.flatten, ' ' ≤ c := by
    clear h hbody
    induction hfronts with
    | nil => simp
    | cons hpiece _ ih =>
      intro c hc
      rw [flatten_cons, mem_append] at hc
      exact hc.elim (hpiece.le c) (ih c)
  intro c hc
  simp only [mem_cons, mem_append] at hc
  obtain rfl | hc | rfl | hc := hc
  · exact .inl (by decide)
  · exact .inl (hle c hc)
  · exact .inl (by decide)
  · exact .inr hc

/-! ## What is written for a character -/

/-- A part that stands for a character. -/
def Stands (i : Item) (c : Char) : Prop := i = .char c ∨ i = .code c.toNat

theorem join_of_stands (h : List.Forall₂ Stands is cs) : join is = cs := by
  induction h with
  | nil => rfl
  | @cons i c is cs hstands _ ih =>
    obtain rfl | rfl := hstands
    · rw [join, ih]
    -- no character has the number of half a pair
    have hvalid := c.valid
    have hhigh : isHigh c.toNat = false := by
      simp only [isHigh, Bool.and_eq_false_iff, decide_eq_false_iff_not]
      simp only [UInt32.isValidChar, Nat.isValidChar, Char.toNat] at hvalid ⊢
      omega
    have hlow : isLow c.toNat = false := by
      simp only [isLow, Bool.and_eq_false_iff, decide_eq_false_iff_not]
      simp only [UInt32.isValidChar, Nat.isValidChar, Char.toNat] at hvalid ⊢
      omega
    rw [join.eq_def]
    simp [hhigh, hlow, ih, Char.ofNat_toNat]

/-- The text is a part of a string and stands for the character. -/
def reads : List Char → Char → Bool
  | [d], c => d == c && d != '"' && d != '\\' && !(d < ' ')
  | ['\\', e], c => unescape e == some c
  | ['\\', 'u', x, y, z, w], c => hexValue4 x y z w == some c.toNat
  | _, _ => false

theorem piece_of_reads (h : reads cs c) : ∃ i, Piece cs i ∧ Stands i c := by
  fun_cases reads cs c with
  | case1 c d =>
    simp only [reads, Bool.and_eq_true, beq_iff_eq, bne_iff_ne, Bool.not_eq_true', decide_eq_false_iff_not] at h
    obtain ⟨⟨⟨rfl, hquote⟩, hback⟩, hc⟩ := h
    exact ⟨_, .char hquote hback hc, .inl rfl⟩
  | case2 e => exact ⟨_, .escape (beq_iff_eq.mp h), .inl rfl⟩
  | case3 x y z w => exact ⟨_, .code (beq_iff_eq.mp h), .inr rfl⟩
  | case4 => simp_all [reads]

/-- A string written piece by piece is read back. -/
theorem string_of_reads {α : Type} {write : α → List Char} {char : α → Char} (h : ∀ a, reads (write a) (char a))
    (as : List α) : string ('"' :: (as.flatMap write ++ ['"'])) = some (as.map char, []) := by
  have hpieces : ∃ is, List.Forall₂ Piece (as.map write) is ∧ List.Forall₂ Stands is (as.map char) := by
    induction as with
    | nil => exact ⟨[], .nil, .nil⟩
    | cons a as ih =>
      obtain ⟨is, hpieces, hstands⟩ := ih
      obtain ⟨i, hpiece, hstand⟩ := piece_of_reads (h a)
      exact ⟨i :: is, .cons hpiece hpieces, .cons hstand hstands⟩
  obtain ⟨is, hpieces, hstands⟩ := hpieces
  exact string_iff.mpr ⟨is, _, rfl, body_iff.mpr ⟨_, hpieces, rfl⟩, join_of_stands hstands⟩

/-! ## Objects without white space -/

/-- The text of a member. -/
def Member (cs : List Char) (m : List Char × List Char) : Prop :=
  ∃ k v, cs = k ++ ':' :: v ∧ string k = some (m.1, []) ∧ string v = some (m.2, [])

theorem skip_string (h : string cs = some (value, rest)) (more : List Char) : skip (cs ++ more) = cs ++ more := by
  obtain ⟨is, t, rfl, -, -⟩ := string_iff.mp h
  rfl

variable {m : List Char × List Char}

theorem Member.member (h : Member cs m) (rest : List Char) : member (cs ++ rest) = some (m, skip rest) := by
  obtain ⟨k, v, rfl, hk, hv⟩ := h
  have hcolon : expect ':' (skip (':' :: (v ++ rest))) = some (v ++ rest) := rfl
  rw [Json.member, append_assoc, cons_append, skip_string hk, string_append hk, bind_eq_bind,
    bind_some]
  simp only [nil_append, bind_eq_bind, hcolon, bind_some, skip_string hv, string_append hv]
  rfl

variable {texts : List (List Char)} {ms : List (List Char × List Char)}

theorem members_intercalate {n : Nat}
    (h : List.Forall₂ Member texts ms) (hne : texts ≠ []) (hn : texts.length ≤ n) (rest : List Char) :
    members n ([','].intercalate texts ++ '\x7d' :: rest) = some (ms, rest) := by
  induction h generalizing n with
  | nil => exact absurd rfl hne
  | @cons t m texts ms hmember hrest ih =>
    cases n with
    | zero => simp at hn
    | succ n =>
      cases texts with
      | nil =>
        cases hrest
        rw [intercalate_singleton, members, hmember.member]
        rfl
      | cons t' texts =>
        have hih := ih (n := n) (by simp) (by simpa using hn)
        rw [intercalate_cons_cons, append_assoc, append_assoc, singleton_append, members,
          hmember.member]
        show (members n ([','].intercalate (t' :: texts) ++ '\x7d' :: rest)).map _ = _
        rw [hih]
        rfl

theorem Member.eq_cons (h : Member cs m) : ∃ t, cs = '"' :: t := by
  obtain ⟨k, v, rfl, hk, -⟩ := h
  obtain ⟨is, t, rfl, -, -⟩ := string_iff.mp hk
  exact ⟨_, rfl⟩

theorem length_le_intercalate
    (h : List.Forall₂ Member texts ms) : texts.length ≤ ([','].intercalate texts).length := by
  induction h with
  | nil => simp
  | @cons t m texts ms hmember hrest ih =>
    obtain ⟨u, rfl⟩ := hmember.eq_cons
    cases texts with
    | nil => simp
    | cons t' texts =>
      rw [intercalate_cons_cons]
      simp only [length_cons, length_append] at ih ⊢
      omega

theorem Member.le (h : Member cs m) : ∀ c ∈ cs, ' ' ≤ c := by
  obtain ⟨k, v, rfl, hk, hv⟩ := h
  intro c hc
  rw [mem_append, mem_cons] at hc
  obtain hc | rfl | hc := hc
  · exact (le_of_mem_string hk c hc).resolve_right not_mem_nil
  · decide
  · exact (le_of_mem_string hv c hc).resolve_right not_mem_nil

theorem le_of_mem_intercalate (h : List.Forall₂ Member texts ms) : ∀ c ∈ [','].intercalate texts, ' ' ≤ c := by
  induction h with
  | nil => simp
  | @cons t m texts ms hmember _ ih =>
    cases texts with
    | nil => simpa using hmember.le
    | cons t' texts =>
      intro c hc
      rw [intercalate_cons_cons, append_assoc, mem_append, singleton_append, mem_cons] at hc
      obtain hc | rfl | hc := hc
      · exact hmember.le c hc
      · decide
      · exact ih c hc

/-- An object that is written without white space. -/
def objectText (texts : List (List Char)) : List Char := '\x7b' :: ([','].intercalate texts ++ ['\x7d'])

/-- It has no control byte. -/
theorem le_of_mem_objectText (h : List.Forall₂ Member texts ms) : ∀ b ∈ encodeText (objectText texts), 0x20 ≤ b := by
  intro b hb
  obtain ⟨c, hc, hb⟩ := mem_flatMap.mp hb
  refine le_of_mem_encode ?_ b hb
  rw [objectText, mem_cons, mem_append, mem_singleton] at hc
  obtain rfl | hc | rfl := hc
  · decide
  · exact le_of_mem_intercalate h c hc
  · decide

/-- **An object written member by member is read back.** -/
theorem decodeObject_objectText (h : List.Forall₂ Member texts ms) (hne : texts ≠ []) :
    decodeObject (encodeText (objectText texts)) = some (ms.map fun m => (encodeText m.1, encodeText m.2)) := by
  have hskip : ∃ t, [','].intercalate texts ++ ['\x7d'] = '"' :: t := by
    cases h with
    | nil => exact absurd rfl hne
    | @cons t m texts ms hmember hrest =>
      obtain ⟨u, rfl⟩ := hmember.eq_cons
      cases texts with
      | nil => exact ⟨_, rfl⟩
      | cons t' texts => exact ⟨_, by rw [intercalate_cons_cons]; rfl⟩
  have hlength := length_le_intercalate h
  obtain ⟨t, ht⟩ := hskip
  have hobject : object (objectText texts) = some (ms, []) := by
    show (match skip ([','].intercalate texts ++ ['\x7d']) with
      | '\x7d' :: cs => some ([], cs)
      | cs => members cs.length cs) = _
    have hmembers := members_intercalate h hne
      (n := ([','].intercalate texts ++ ['\x7d']).length) (by rw [length_append]; omega) []
    rw [ht] at hmembers ⊢
    exact hmembers
  rw [decodeObject, decodeText_encodeText, bind_eq_bind, bind_some, hobject]
  rfl

theorem decodeString_iff {s value : Bytes} :
    decodeString s = some value ↔ ∃ cs v, s = encodeText cs ∧ string cs = some (v, []) ∧ value = encodeText v := by
  constructor
  · intro h
    obtain ⟨cs, hcs, hrest⟩ := bind_eq_some_iff.mp h
    split at hrest
    next v hv => exact ⟨cs, v, encodeText_of_decodeText hcs, hv, (some.inj hrest).symm⟩
    next => cases hrest
  · rintro ⟨cs, v, rfl, hv, rfl⟩
    rw [decodeString, decodeText_encodeText, bind_eq_bind, bind_some, hv]

end DockerEngine.Json
