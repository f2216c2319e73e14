import DockerEngine.Lib.Bytes
import DockerEngine.Lib.Words

/-!
# The last lines of a file

`TailFile` of `pkg/tailfile/tailfile.go` reads a file in blocks from its end until it has met more than `n` ends of
lines or is at the beginning. So it has the whole file, or an end of it with more than `n` lines (`collect_spec`), and
both have the same last lines. Seeks and reads do not fail, and a read fills its buffer.
-/

namespace DockerEngine.Tailfile

open List

def blockSize : Nat := 1024

def eol : UInt8 := 10

def errNonPositiveLinesNumber : String := "Lines number must be positive"

variable (f s : Bytes) (n : Nat)

/-- The loop of `TailFile`: `block` is counted from 1, and not down from -1. -/
def collect (block : Nat) (data : Bytes) (cnt : Nat) : Bytes :=
  if f.length < block * blockSize then f.take (blockSize + f.length - block * blockSize) ++ data
  else
    let b := (f.drop (f.length - block * blockSize)).take blockSize
    let cnt := cnt + b.count eol
    if cnt > n then b ++ data else collect (block + 1) (b ++ data) cnt
termination_by f.length + blockSize - block * blockSize
decreasing_by
  have : 0 < blockSize := by decide
  rw [Nat.add_mul]
  omega

def tailFile (n : Int) : Except String (List Bytes) :=
  if n ≤ 0 then .error errNonPositiveLinesNumber
  else
    let n := n.toNat
    let lines := (collect f n 1 [] 0).splitOn eol
    if n < lines.length then .ok ((lines.take (lines.length - 1)).drop (lines.length - n - 1))
    else .ok (lines.take (lines.length - 1))

variable {f n}

/-- The loop ends with the whole file, or with an end of it that has more than `n` ends of lines. -/
theorem collect_spec {k : Nat} {d : Bytes} (hk : k * blockSize ≤ f.length) (hd : d = f.drop (f.length - k * blockSize)) :
    ∃ pre, f = pre ++ collect f n (k + 1) d (d.count eol) ∧
      (pre = [] ∨ n < (collect f n (k + 1) d (d.count eol)).count eol) := by
  have hpos : 0 < blockSize := by decide
  have hmul : (k + 1) * blockSize = k * blockSize + blockSize := Nat.succ_mul ..
  rw [collect]
  split
  · refine ⟨[], ?_, .inl rfl⟩
    rw [show blockSize + f.length - (k + 1) * blockSize = f.length - k * blockSize by omega, hd, take_append_drop,
      nil_append]
  · next hge =>
    have hb : (f.drop (f.length - (k + 1) * blockSize)).take blockSize ++ d =
        f.drop (f.length - (k + 1) * blockSize) := by
      rw [hd, show f.length - k * blockSize = f.length - (k + 1) * blockSize + blockSize by omega, ← drop_drop,
        take_append_drop]
    simp only [Nat.add_comm (d.count eol), ← count_append, hb]
    split
    · next hcnt => exact ⟨_, (take_append_drop ..).symm, .inr hcnt⟩
    · exact collect_spec (Nat.le_of_not_lt hge) rfl
termination_by f.length + blockSize - k * blockSize
decreasing_by
  have : 0 < blockSize := by decide
  omega

/-- The lines of a text that have an end. -/
def lines : List Bytes := (s.splitOn eol).dropLast

def lastLines (n : Nat) (s : Bytes) : List Bytes := (lines s).drop ((lines s).length - n)

theorem drop_last_append {α : Type} {a b : List α} (h : n ≤ b.length) :
    (a ++ b).drop ((a ++ b).length - n) = b.drop (b.length - n) := by
  rw [length_append, Nat.add_sub_assoc h, drop_append, drop_of_length_le (by omega), nil_append]
  congr 1
  omega

/-- What is before an end of a text with more than `n` ends of lines has no part in its last `n` lines. -/
theorem lastLines_append {t : Bytes} (h : n < t.count eol) : lastLines n (s ++ t) = lastLines n t := by
  obtain ⟨l, r, rfl, hl⟩ := eq_append_cons_of_mem (count_pos_iff.mp (Nat.zero_lt_of_lt h))
  have hr : ∀ a, lines (a ++ eol :: r) = a.splitOn eol ++ lines r := by
    intro a
    rw [lines, splitOn_append_cons_self, dropLast_append_of_ne_nil (splitOn_ne_nil _ _), lines]
  have hn : n ≤ (lines r).length := by
    rw [count_append, count_eq_zero.mpr hl, count_cons_self] at h
    rw [lines, length_dropLast, Words.length_splitOn]
    omega
  rw [lastLines, lastLines, ← append_assoc, hr, hr, drop_last_append hn, drop_last_append hn]

theorem intercalate_concat (ls : List Bytes) (rest : Bytes) :
    [eol].intercalate (ls ++ [rest]) = ls.flatMap (· ++ [eol]) ++ rest := by
  induction ls with
  | nil => simp
  | cons l ls ih => simp [intercalate_cons_of_ne_nil, ih]

/-- **The last lines.** A file is lines with their ends and a rest without one, and of the lines `TailFile` returns
the last ones. -/
theorem tailFile_last_lines (f : Bytes) (n : Nat) : ∃ ls rest,
    f = ls.flatMap (· ++ [eol]) ++ rest ∧ (∀ l ∈ rest :: ls, eol ∉ l) ∧
      tailFile f (n + 1 : Nat) = .ok (ls.drop (ls.length - (n + 1))) := by
  refine ⟨lines f, (f.splitOn eol).getLast (splitOn_ne_nil _ _), ?_, ?_, ?_⟩
  · rw [← intercalate_concat, lines, dropLast_append_getLast, intercalate_splitOn]
  · intro l hl
    refine Words.not_mem_of_mem_splitOn (s := f) ?_
    rcases mem_cons.mp hl with rfl | hl
    · exact getLast_mem _
    · exact dropLast_subset _ hl
  · have hlast : lastLines (n + 1) f = lastLines (n + 1) (collect f (n + 1) 1 [] 0) := by
      obtain ⟨pre, hf, hpre⟩ := collect_spec (n := n + 1) (k := 0) (d := []) (by omega) (by simp)
      rcases hpre with rfl | hlt
      · exact congrArg _ hf
      · exact (congrArg _ hf).trans (lastLines_append pre hlt)
    rw [← lastLines, hlast, tailFile, if_neg (by omega)]
    simp only [Int.toNat_natCast, lastLines, lines, length_dropLast, ← dropLast_eq_take, Nat.sub_right_comm _ 1]
    split
    · rfl
    · rw [Nat.sub_eq_zero_of_le (by omega), drop_zero]

end DockerEngine.Tailfile
