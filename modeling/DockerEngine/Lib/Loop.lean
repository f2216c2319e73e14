import Mathlib

/-!
# Loops that return

A loop is a function that looks at the state of the loop and either goes round once more, with a new
state, or leaves with a result. `run` makes a bounded number of rounds. The invariant rule says what
holds of a result, the measure rule that there is one; together they are the total correctness of the
loop.
-/

namespace DockerEngine.Loop

variable {S R : Type}

/-- At most `k` rounds of the loop. -/
def run (step : S → S ⊕ R) : Nat → S → Option R
  | 0, _ => none
  | k + 1, s =>
    match step s with
    | .inl s' => run step k s'
    | .inr r => some r

variable {step : S → S ⊕ R} {I : S → Prop}

variable {k : Nat} {s : S} {r : R}

theorem run_continue {s' : S} (h : step s = .inl s') : run step (k + 1) s = run step k s' := by
  rw [run, h]

theorem run_leave (h : step s = .inr r) : run step (k + 1) s = some r := by
  rw [run, h]

/-- More rounds change nothing about a loop that has returned. -/
theorem run_mono {k' : Nat} (hk : k ≤ k') (h : run step k s = some r) : run step k' s = some r := by
  induction k generalizing k' s with
  | zero => cases h
  | succ k ih =>
    obtain ⟨j, rfl⟩ : ∃ j, k' = j + 1 := ⟨k' - 1, by omega⟩
    cases hnext : step s with
    | inl s' =>
      rw [run_continue hnext] at h ⊢
      exact ih (by omega) h
    | inr r' =>
      rw [run_leave hnext] at h ⊢
      exact h

/-- What a loop returns has the property that leaving it with the invariant gives. -/
theorem run_post (Post : R → Prop) (hstep : ∀ s s', I s → step s = .inl s' → I s')
    (hleave : ∀ s r, I s → step s = .inr r → Post r) :
    ∀ {k : Nat} {s : S} {r : R}, I s → run step k s = some r → Post r := by
  intro k
  induction k with
  | zero =>
    intro s r _ h
    cases h
  | succ k ih =>
    intro s r hs h
    cases hnext : step s with
    | inl s' =>
      rw [run_continue hnext] at h
      exact ih (hstep s s' hs hnext) h
    | inr r' =>
      rw [run_leave hnext] at h
      cases h
      exact hleave s _ hs hnext

/-- A loop whose rounds lower a measure returns. -/
theorem run_returns (measure : S → Nat) (hstep : ∀ s s', I s → step s = .inl s' → I s')
    (hlower : ∀ s s', I s → step s = .inl s' → measure s' < measure s) :
    ∀ {k : Nat} {s : S}, I s → measure s < k → ∃ r, run step k s = some r := by
  intro k
  induction k with
  | zero =>
    intro s _ h
    omega
  | succ k ih =>
    intro s hs hk
    cases hnext : step s with
    | inl s' =>
      have hlt := hlower s s' hs hnext
      rw [run_continue hnext]
      apply ih (hstep s s' hs hnext)
      omega
    | inr r => exact ⟨r, run_leave hnext⟩

end DockerEngine.Loop
