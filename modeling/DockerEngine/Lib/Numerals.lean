import DockerEngine.Lib.Bytes

/-!
# Numbers as text

Decimal numerals of machine integers, as `strconv.Itoa` writes them, and hexadecimal digits, as
`hex.EncodeToString` writes them. Both can be read back.
-/

namespace DockerEngine.Bytes

open List UInt8

/-- The digit of a number below ten. -/
def digit (n : Nat) : UInt8 := ofNat (48 + n)

/-- The decimal digits of a number. -/
def decimal (n : Nat) : Bytes := if n < 10 then [digit n] else decimal (n / 10) ++ [digit (n % 10)]

/-- `strconv.Itoa`. An `int` has 64 bits. -/
def itoa (n : Int64) : Bytes :=
  if n.toInt < 0 then ch '-' :: decimal n.toInt.natAbs else decimal n.toInt.natAbs

/-- What numerals are made of. -/
def isNumeral (b : UInt8) : Bool := b == ch '-' || isDigit b

/-- The number that digits stand for. -/
def value (s : Bytes) : Nat := s.foldl (fun n b => 10 * n + (b.toNat - 48)) 0

theorem toNat_digit {n : Nat} (h : n < 10) : (digit n).toNat = 48 + n := by
  rw [digit, toNat_ofNat', Nat.mod_eq_of_lt (by omega)]

theorem isDigit_digit {n : Nat} (h : n < 10) : isDigit (digit n) := by
  simp only [isDigit, Bool.and_eq_true, decide_eq_true_eq, le_iff_toNat_le, reduceToNat, toNat_digit h]
  omega

theorem isDigit_decimal (n : Nat) : ∀ b ∈ decimal n, isDigit b := by
  fun_induction decimal n with
  | case1 n h => simpa using isDigit_digit h
  | case2 n h ih =>
    exact forall_mem_append.mpr ⟨ih, forall_mem_singleton.mpr (isDigit_digit (by omega))⟩

theorem value_decimal (n : Nat) : value (decimal n) = n := by
  fun_induction decimal n with
  | case1 n h =>
    rw [value, foldl_cons, foldl_nil, toNat_digit h]
    omega
  | case2 n h ih =>
    rw [value] at ih
    rw [value, foldl_append, ih, foldl_cons, foldl_nil, toNat_digit (by omega)]
    omega

theorem decimal_inj {m n : Nat} (h : decimal m = decimal n) : m = n := by
  rw [← value_decimal m, h, value_decimal]

theorem isNumeral_itoa (n : Int64) : ∀ b ∈ itoa n, isNumeral b := by
  have hdigits : ∀ b ∈ decimal n.toInt.natAbs, isNumeral b := by
    intro b hb
    rw [isNumeral, isDigit_decimal _ b hb, Bool.or_true]
  unfold itoa
  split
  · exact forall_mem_cons.mpr ⟨rfl, hdigits⟩
  · exact hdigits

theorem itoa_inj {m n : Int64} (h : itoa m = itoa n) : m = n := by
  apply Int64.toInt_inj.mp
  -- a numeral without a sign does not begin with one
  have hsign : ∀ k l : Nat, decimal k ≠ ch '-' :: decimal l := by
    intro k l heq
    have hminus := isDigit_decimal k (ch '-') (by rw [heq]; exact mem_cons_self)
    revert hminus
    decide
  unfold itoa at h
  split at h <;> split at h
  · have := decimal_inj (cons.inj h).2
    omega
  · exact absurd h.symm (hsign _ _)
  · exact absurd h (hsign _ _)
  · have := decimal_inj h
    omega

/-! ## Hexadecimal digits -/

/-- `"0123456789abcdef"[n]`. -/
def hexDigit (n : UInt8) : UInt8 := if n < 10 then 48 + n else 87 + n

/-- `hex.EncodeToString`. -/
def hexEncode (s : Bytes) : Bytes := s.flatMap fun b : UInt8 => [hexDigit (b >>> 4), hexDigit (b &&& 15)]

theorem length_hexEncode (s : Bytes) : (hexEncode s).length = 2 * s.length := by
  simp [hexEncode, length_flatMap, Nat.mul_comm]

/-- The number of a hexadecimal digit. -/
def unhex (b : UInt8) : UInt8 := if b < 58 then b - 48 else b - 87

theorem unhex_digits (b : UInt8) : unhex (hexDigit (b >>> 4)) * 16 + unhex (hexDigit (b &&& 15)) = b :=
  byte_cases b (by decide +kernel)

theorem hexEncode_inj {s t : Bytes} (h : hexEncode s = hexEncode t) : s = t := by
  induction s generalizing t with
  | nil =>
    cases t with
    | nil => rfl
    | cons c t => cases h
  | cons b s ih =>
    cases t with
    | nil => cases h
    | cons c t =>
      rw [hexEncode, hexEncode, flatMap_cons, flatMap_cons] at h
      obtain ⟨hhigh, h⟩ := cons.inj h
      obtain ⟨hlow, h⟩ := cons.inj h
      rw [← unhex_digits b, hhigh, hlow, unhex_digits, ih h]

end DockerEngine.Bytes
