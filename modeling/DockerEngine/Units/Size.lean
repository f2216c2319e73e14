import DockerEngine.Lib.Numerals

/-!
# Sizes with a unit

`units.FromHumanSize` and `units.RAMInBytes` read a numeral with a unit behind it. The numeral has to fit in 64 bits
with a sign; its product with the unit is not looked at, and wraps around. `parseSize_exact_iff` says for which texts
the number is the one that is written.
-/

namespace DockerEngine.Units

open Bytes List

inductive SizeErr where
  | invalidSize (s : Bytes)
  | outOfRange (numeral : Bytes)
  deriving DecidableEq, Repr

/-- A unit, by the power of the base that it stands for. -/
def unit (c : UInt8) : Option Nat :=
  ["kK", "mM", "gG", "tT", "pP"].findIdx? fun u => c ∈ text u

def isB (c : UInt8) : Bool := c ∈ text "bB"

/-- `sizeRegex`: the digits, and the power of the base, which is 0 without a unit. -/
def sizeRegex (s : Bytes) : Option (Bytes × Nat) :=
  if s.takeWhile isDigit = [] then none
  else
    (match s.dropWhile isDigit with
    | [] => some 0
    | [c] => if isB c then some 0 else (unit c).map (· + 1)
    | [c, b] => if isB b then (unit c).map (· + 1) else none
    | _ => none).map (s.takeWhile isDigit, ·)

section

variable (base : Nat) (s : Bytes)

/-- `parseSize`, with the map of the units in which `k` stands for the base. The result is an `int64`. -/
def parseSize : Except SizeErr Int :=
  match sizeRegex s with
  | none => .error (.invalidSize s)
  | some (digits, power) =>
    if value digits < 2 ^ 63 then .ok (((value digits * base ^ power : Nat) : Int).bmod (2 ^ 64))
    else .error (.outOfRange digits)

/-- `FromHumanSize`. -/
def fromHumanSize (s : Bytes) : Except SizeErr Int := parseSize 1000 s

/-- `RAMInBytes`. -/
def ramInBytes : Except SizeErr Int := parseSize 1024 s

/-- The numeral and the unit of a text. -/
def reading : Option (Nat × Nat) := (sizeRegex s).map fun m => (value m.1, base ^ m.2)

/-- The result is the number that the text says, if that fits, and an error otherwise. -/
def Exact (r : Except SizeErr Int) : Prop :=
  ∀ z, r = .ok z ↔ ∃ n u, reading base s = some (n, u) ∧ n * u < 2 ^ 63 ∧ z = (n * u : Nat)

/-- The product fits if the numeral does. -/
def Fits : Prop := ∀ n u, reading base s = some (n, u) → n < 2 ^ 63 → n * u < 2 ^ 63

end

theorem bmod_eq_self_iff (n : Nat) : (n : Int).bmod (2 ^ 64) = n ↔ n < 2 ^ 63 := by
  rw [Int.bmod]
  omega

theorem exact_parseSize_iff {base : Nat} (hbase : 0 < base) (s : Bytes) :
    Exact base s (parseSize base s) ↔ Fits base s := by
  unfold Exact Fits reading parseSize
  rcases sizeRegex s with _ | ⟨digits, power⟩
  · simp
  simp only [Option.map_some, Option.some.injEq, Prod.mk.injEq]
  by_cases hn : value digits < 2 ^ 63
  · rw [if_pos hn]
    constructor
    · rintro h _ _ ⟨rfl, rfl⟩ _
      obtain ⟨_, _, ⟨rfl, rfl⟩, hlt, -⟩ := (h _).mp rfl
      exact hlt
    · intro h z
      have hlt := h _ _ ⟨rfl, rfl⟩ hn
      rw [(bmod_eq_self_iff _).mpr hlt, Except.ok.injEq]
      exact ⟨fun hz => ⟨_, _, ⟨rfl, rfl⟩, hlt, hz.symm⟩, fun ⟨_, _, ⟨hn, hu⟩, _, hz⟩ => by rw [hz, hn, hu]⟩
  · rw [if_neg hn]
    have hle := Nat.le_mul_of_pos_right (value digits) (Nat.pow_pos hbase (n := power))
    refine iff_of_true (fun z => iff_of_false nofun ?_) fun n u hnu hlt => absurd (hnu.1 ▸ hlt) hn
    rintro ⟨_, _, ⟨rfl, rfl⟩, hlt, -⟩
    omega

/-- **When a size is the one that is written**: exactly if the product of the numeral and the unit fits wherever the
numeral does. -/
theorem parseSize_exact_iff (s : Bytes) :
    (Exact 1000 s (fromHumanSize s) ↔ Fits 1000 s) ∧ (Exact 1024 s (ramInBytes s) ↔ Fits 1024 s) :=
  ⟨exact_parseSize_iff (by decide) s, exact_parseSize_iff (by decide) s⟩

/-- Eight mebi tebibytes. -/
theorem ramInBytes_negative : ramInBytes (text "8388608t") = .ok (-9223372036854775808) := by decide

end DockerEngine.Units
