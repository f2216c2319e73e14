import Mathlib

/-!
# Copying a stream

`io.Copy` reads from a source and writes what it has read to a destination until the source ends, a read
fails, or a write fails or stores less than it was given. A run is the list of its rounds: what the read
returned and what the write of it did. Whoever listens at the source has seen all that was read; the
destination holds what the writes stored. `written_eq_read_iff` says when the two are the same: when each
write that was made stored all it was given.
-/

namespace DockerEngine.Copy

/-- How a read ends besides its data. -/
inductive ReadErr where
  | eof
  | failed
  deriving DecidableEq, Repr

/-- What a write did: the number of items it stored, and whether it failed. -/
structure Write where
  stored : Nat
  failed : Bool
  deriving DecidableEq, Repr

/-- One round: what was read, how the read ended, and what the write of it does. -/
structure Round (α : Type) where
  data : List α
  readErr : Option ReadErr
  write : Write
  deriving DecidableEq, Repr

/-- The error a copy returns. -/
inductive CopyErr where
  | write
  | shortWrite
  | read
  deriving DecidableEq, Repr

/-- What a copy has done: what was read, what was stored, and the error returned. -/
structure Copied (α : Type) where
  read : List α
  written : List α
  err : Option CopyErr
  deriving DecidableEq, Repr

variable {α : Type}

/-- The copy goes on behind a round. -/
def Copied.after (data : List α) (c : Copied α) : Copied α := ⟨data ++ c.read, data ++ c.written, c.err⟩

/-- `io.Copy`, up to the end of the run. -/
def copy : List (Round α) → Copied α
  | [] => ⟨[], [], none⟩
  | r :: rs =>
    -- nothing is written when nothing was read
    if r.data ≠ [] ∧ r.write.failed = true then ⟨r.data, r.data.take r.write.stored, some .write⟩
    else if r.write.stored < r.data.length then ⟨r.data, r.data.take r.write.stored, some .shortWrite⟩
    else
      match r.readErr with
      | some .eof => ⟨r.data, r.data, none⟩
      | some .failed => ⟨r.data, r.data, some .read⟩
      | none => (copy rs).after r.data

/-- The copy goes on after the round. -/
def Round.Passes (r : Round α) : Prop :=
  r.readErr = none ∧ (r.data = [] ∨ r.write.failed = false) ∧ r.data.length ≤ r.write.stored

/-- Every write that is made stores all it was given. -/
def Lossless (rounds : List (Round α)) : Prop :=
  ∀ pre r post, rounds = pre ++ r :: post → (∀ x ∈ pre, x.Passes) → r.data.length ≤ r.write.stored

theorem lossless_nil : Lossless ([] : List (Round α)) := by
  intro pre r post h
  simp at h

theorem lossless_cons {r : Round α} {rs : List (Round α)} :
    Lossless (r :: rs) ↔ r.data.length ≤ r.write.stored ∧ (r.Passes → Lossless rs) := by
  constructor
  · intro h
    refine ⟨h [] r rs rfl (by simp), fun hr pre x post hx hpre => ?_⟩
    apply h (r :: pre) x post (by rw [hx, List.cons_append])
    exact List.forall_mem_cons.mpr ⟨hr, hpre⟩
  · rintro ⟨hstored, hrest⟩ pre x post hx hpre
    cases pre with
    | nil =>
      cases hx
      exact hstored
    | cons y pre =>
      rw [List.cons_append, List.cons.injEq] at hx
      obtain ⟨rfl, hx⟩ := hx
      exact hrest (hpre r (by simp)) pre x post hx (List.forall_mem_cons.mp hpre).2

/-- **What was stored is what was read** exactly when each write that was made stored all of its data. -/
theorem written_eq_read_iff (rounds : List (Round α)) :
    (copy rounds).written = (copy rounds).read ↔ Lossless rounds := by
  induction rounds with
  | nil => exact iff_of_true rfl lossless_nil
  | cons r rs ih =>
    rw [lossless_cons, copy]
    by_cases hstored : r.data.length ≤ r.write.stored
    · have htake : r.data.take r.write.stored = r.data := List.take_of_length_le hstored
      split
      next hfail =>
        -- the write failed after all was stored
        refine iff_of_true htake ⟨hstored, fun hpass => ?_⟩
        have hok := hpass.2.1.resolve_left hfail.1
        rw [hfail.2] at hok
        cases hok
      next hfail =>
        rw [if_neg (by omega)]
        have hok : r.data = [] ∨ r.write.failed = false := by
          by_cases h0 : r.data = []
          · exact .inl h0
          · exact .inr (by simpa [h0] using hfail)
        cases hend : r.readErr with
        | some e =>
          have hstop : ¬ r.Passes := fun hpass => by
            have hnone := hpass.1
            rw [hend] at hnone
            cases hnone
          cases e with
          | eof => exact iff_of_true rfl ⟨hstored, fun hpass => absurd hpass hstop⟩
          | failed => exact iff_of_true rfl ⟨hstored, fun hpass => absurd hpass hstop⟩
        | none =>
          have hpass : r.Passes := ⟨hend, hok, hstored⟩
          show r.data ++ (copy rs).written = r.data ++ (copy rs).read ↔ _
          rw [List.append_right_inj, ih]
          exact ⟨fun h => ⟨hstored, fun _ => h⟩, fun h => h.2 hpass⟩
    · have hshort : r.data.take r.write.stored ≠ r.data :=
        fun h => hstored (h ▸ List.length_take_le ..)
      refine iff_of_false ?_ fun h => hstored h.1
      split
      next => exact hshort
      next =>
        rw [if_pos (by omega)]
        exact hshort

end DockerEngine.Copy
