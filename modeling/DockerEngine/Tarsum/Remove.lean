import DockerEngine.Tarsum.Sums

/-!
# Removing a name from the sums

`tarSum.Remove` cuts entries out of the slice it ranges over. The range keeps the first length of the slice, and
the cut moves the entries behind it in the array that both share. So the entry behind a removed one is never
looked at, and behind the end of the shortened slice the loop meets copies of the last entry (`removeFrom_stale`):
if that has the name, the bounds of the slice that is taken there are out of range.

`Remove` is right exactly if no two neighbours have the name, and the last entry has it only as the single one.
-/

namespace DockerEngine.Tarsum

open Bytes List Option Nat

/-- A slice from the beginning of an array. -/
structure Slice where
  array : List FileInfoSum
  len : Nat

def Slice.entries (s : Slice) : List FileInfoSum := s.array.take s.len

/-- `append(sums[:i], sums[i+1:]...)`, in place. The second slice is out of range behind the end. -/
def Slice.cut (s : Slice) (i : Nat) : Option Slice :=
  if i + 1 ≤ s.len then
    some ⟨s.array.take i ++ (s.entries.drop (i + 1) ++ s.array.drop (s.len - 1)), s.len - 1⟩
  else none

/-- The body of the loop. The entry comes from the array. -/
def removeAt (filename : Bytes) (s : Slice) (i : Nat) : Option Slice :=
  if s.array[i]?.map FileInfoSum.name = some filename then s.cut i else some s

/-- `m` rounds of the loop from the index `i` on. -/
def removeFrom (filename : Bytes) : Nat → Nat → Slice → Option Slice
  | 0, _, s => some s
  | m + 1, i, s => (removeAt filename s i).bind (removeFrom filename m (i + 1))

/-- `Remove`; `none` is a panic. -/
def remove (filename : Bytes) (sums : List FileInfoSum) : Option (List FileInfoSum) :=
  (removeFrom filename sums.length 0 ⟨sums, sums.length⟩).map Slice.entries

variable {filename : Bytes} {x z : FileInfoSum} {l done todo : List FileInfoSum} {s : Slice} {i k m : Nat}

/-! ## What the loop does -/

/-- What the loop leaves of the entries: it passes over the one behind a removed one. -/
def sweep (filename : Bytes) : List FileInfoSum → List FileInfoSum
  | [] => []
  | x :: l =>
    if x.name = filename then
      match l with
      | [] => []
      | y :: l' => y :: sweep filename l'
    else x :: sweep filename l

theorem sweep_of_ne (hx : x.name ≠ filename) : sweep filename (x :: l) = x :: sweep filename l := by
  cases l with
  | nil => exact if_neg hx
  | cons y l => exact if_neg hx

/-- The loop has passed `done` and has `todo` before it. It has removed `k` entries, and as many copies of the
last entry are behind the end. -/
structure Slice.At (s : Slice) (done todo : List FileInfoSum) (k : Nat) (z : FileInfoSum) : Prop where
  array : s.array = done ++ (todo ++ replicate k z)
  len : s.len = done.length + todo.length

/-- An entry is passed over. -/
theorem Slice.At.pass (h : s.At done (x :: todo) k z) : s.At (done ++ [x]) todo k z :=
  ⟨by simp [h.array], by simp [h.len]; omega⟩

theorem Slice.At.entries_eq (h : s.At done todo k z) : s.entries = done ++ todo := by
  rw [Slice.entries, h.array, h.len, ← length_append, ← append_assoc, take_left]

theorem Slice.At.removeAt_eq (h : s.At done (x :: todo) k z) (filename : Bytes) :
    removeAt filename s done.length = if x.name = filename then s.cut done.length else some s := by
  simp [removeAt, h.array]

/-- An entry is removed. The last one is doubled: its copy is behind the new end. -/
theorem Slice.At.cut (h : s.At done (x :: todo) k z) (hz : ∀ e ∈ (x :: todo).getLast?, e = z) :
    ∃ s', s.cut done.length = some s' ∧ s'.At done todo (k + 1) z := by
  have hsnoc : (x :: todo).dropLast ++ [z] = x :: todo := by
    rw [← hz _ (getLast?_eq_some_getLast (cons_ne_nil x todo)), dropLast_append_getLast]
  have hstale : s.array.drop (s.len - 1) = z :: replicate k z := by
    have harray : s.array = done ++ (x :: todo).dropLast ++ z :: replicate k z := by
      rw [h.array]
      nth_rewrite 1 [← hsnoc]
      simp
    rw [harray]
    exact drop_left' (by simp [h.len])
  rw [Slice.cut, if_pos (by simp [h.len]), hstale, h.entries_eq]
  exact ⟨_, rfl, by simp [h.array, replicate_succ], by simp [h.len]⟩

/-- Behind the end the loop meets copies of the last entry. -/
theorem removeFrom_stale (hi : s.len ≤ i) (hz : s.array.drop i = replicate m z) :
    (removeFrom filename m i s).map Slice.entries =
      if z.name = filename ∧ 1 ≤ m then none else some s.entries := by
  induction m generalizing i with
  | zero => simp [removeFrom]
  | succ m ih =>
    have hget : s.array[i]? = some z := by
      rw [← Nat.add_zero i, ← getElem?_drop, hz]
      rfl
    have hrest : s.array.drop (i + 1) = replicate m z := by
      rw [← drop_drop, hz]
      rfl
    rw [removeFrom, removeAt, hget]
    by_cases hname : z.name = filename
    · simp [hname, Slice.cut, not_le.mpr (lt_succ_of_le hi)]
    · simpa [hname] using ih (le_succ_of_le hi) hrest

/-- The loop breaks down: the last entry has the name, and another one has been removed or will be. -/
def Overruns (filename : Bytes) (z : FileInfoSum) (k : Nat) (todo : List FileInfoSum) : Prop :=
  z.name = filename ∧ (1 ≤ k ∨ 2 ≤ todo.countP (·.name = filename))

instance : Decidable (Overruns filename z k l) := inferInstanceAs (Decidable (_ ∧ _))

theorem removeFrom_eq (h : s.At done todo k z) (hz : ∀ e ∈ todo.getLast?, e = z) :
    (removeFrom filename (todo.length + k) done.length s).map Slice.entries =
      if Overruns filename z k todo then none else some (done ++ sweep filename todo) := by
  induction todo using sweep.induct filename generalizing done k s with
  | case1 =>
    have harray : s.array.drop done.length = replicate k z := by simp [h.array]
    rw [length_nil, Nat.zero_add, removeFrom_stale (by simp [h.len]) harray]
    simp [Overruns, h.entries_eq, sweep]
  | case2 x hx =>
    obtain ⟨s', hcut, h'⟩ := h.cut hz
    have harray : s'.array.drop (done.length + 1) = replicate k z := by simp [h'.array, replicate_succ]
    rw [length_singleton, Nat.add_comm, removeFrom, h.removeAt_eq, if_pos hx, hcut, bind_some,
      removeFrom_stale (by simp [h'.len]) harray]
    cases hz x rfl
    simp [Overruns, h'.entries_eq, sweep, hx]
  | case3 x hx y l ih =>
    obtain ⟨s', hcut, h'⟩ := h.cut hz
    have hpass := ih h'.pass fun e he => hz e (mem_getLast?_cons (mem_getLast?_cons he))
    have hmem : z ∈ y :: l := by
      rw [← hz _ (getLast?_cons_cons.trans (getLast?_eq_some_getLast (cons_ne_nil y l)))]
      exact getLast_mem _
    have hover : Overruns filename z (k + 1) l ↔ Overruns filename z k (x :: y :: l) := by
      refine ⟨fun h => ⟨h.1, .inr ?_⟩, fun h => ⟨h.1, .inl (le_add_left 1 k)⟩⟩
      rw [countP_cons_of_pos (by simpa using hx)]
      exact succ_le_succ (one_le_countP_iff.mpr ⟨z, hmem, by simpa using h.1⟩)
    rw [length_cons, Nat.add_right_comm, removeFrom, h.removeAt_eq, if_pos hx, hcut, bind_some,
      ← if_congr hover rfl rfl, sweep, if_pos hx]
    simpa [Nat.add_right_comm, Nat.add_assoc] using hpass
  | case4 x l hx ih =>
    have hpass := ih h.pass fun e he => hz e (mem_getLast?_cons he)
    have hover : Overruns filename z k l ↔ Overruns filename z k (x :: l) := by
      rw [Overruns, Overruns, countP_cons_of_neg (by simpa using hx)]
    rw [length_cons, Nat.add_right_comm, removeFrom, h.removeAt_eq, if_neg hx, bind_some,
      ← if_congr hover rfl rfl, sweep_of_ne hx]
    simpa using hpass

/-! ## When the name is gone -/

/-- No two neighbours have the name. -/
def Apart (filename : Bytes) (l : List FileInfoSum) : Prop :=
  l.IsChain fun x y => ¬ (x.name = filename ∧ y.name = filename)

theorem apart_cons_cons {y : FileInfoSum} :
    Apart filename (x :: y :: l) ↔ ¬ (x.name = filename ∧ y.name = filename) ∧ Apart filename (y :: l) :=
  isChain_cons_cons

theorem apart_cons (hx : x.name ≠ filename) : Apart filename (x :: l) ↔ Apart filename l := by
  cases l with
  | nil => simp [Apart]
  | cons y l => exact apart_cons_cons.trans (and_iff_right fun h => hx h.1)

theorem sweep_eq_filter_iff : sweep filename l = l.filter (·.name ≠ filename) ↔ Apart filename l := by
  induction l using sweep.induct filename with
  | case1 => simp [sweep, Apart]
  | case2 x hx => simp [sweep, Apart, hx]
  | case3 x hx y l ih =>
    rw [sweep, if_pos hx, filter_cons_of_neg (by simpa using hx), apart_cons_cons]
    by_cases hy : y.name = filename
    · refine iff_of_false (fun h => ?_) fun h => h.1 ⟨hx, hy⟩
      have hmem : y ∈ (y :: l).filter (·.name ≠ filename) := h ▸ mem_cons_self
      simp [hy] at hmem
    · rw [filter_cons_of_pos (by simpa using hy), cons_inj_right, ih, apart_cons hy]
      exact (and_iff_right fun h => hy h.2).symm
  | case4 x l hx ih =>
    rw [sweep_of_ne hx, filter_cons_of_pos (by simpa using hx), cons_inj_right, ih, apart_cons hx]

/-- `Remove` leaves the entries with other names exactly if the entries with the name are apart and the last
entry is not one of several. -/
theorem remove_exact_iff (filename : Bytes) (sums : List FileInfoSum) :
    remove filename sums = some (sums.filter (·.name ≠ filename)) ↔
      Apart filename sums ∧ ∀ z ∈ sums.getLast?, z.name = filename → sums.countP (·.name = filename) ≤ 1 := by
  cases hlast : sums.getLast? with
  | none =>
    cases getLast?_eq_none_iff.mp hlast
    exact iff_of_true rfl ⟨.nil, nofun⟩
  | some z =>
    have hat : Slice.At ⟨sums, sums.length⟩ [] sums 0 z := ⟨(append_nil sums).symm, (Nat.zero_add _).symm⟩
    have hrun : remove filename sums = if Overruns filename z 0 sums then none else some (sweep filename sums) :=
      removeFrom_eq hat fun e he => some.inj (he.symm.trans hlast)
    have hover : Overruns filename z 0 sums ↔ ¬ (z.name = filename → sums.countP (·.name = filename) ≤ 1) := by
      simp [Overruns, lt_iff_add_one_le]
    rw [hrun, ← sweep_eq_filter_iff]
    by_cases h : Overruns filename z 0 sums
    · rw [if_pos h]
      exact iff_of_false nofun fun hand => hover.mp h (hand.2 z rfl)
    · rw [if_neg h, some_inj]
      exact (and_iff_left fun _ he => some.inj he ▸ not_not.mp (hover.not.mp h)).symm

/-- Of two neighbours one stays, and the second of two at the end is out of range. -/
theorem remove_leaves_or_panics :
    remove (text "x") [⟨text "x", [], 0⟩, ⟨text "x", [], 1⟩, ⟨text "y", [], 2⟩] =
        some [⟨text "x", [], 1⟩, ⟨text "y", [], 2⟩] ∧
      remove (text "x") [⟨text "x", [], 0⟩, ⟨text "y", [], 1⟩, ⟨text "x", [], 2⟩] = none := by
  decide +kernel

end DockerEngine.Tarsum
