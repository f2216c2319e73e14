import Mathlib

/-!
# Outcomes

When a computation that may fail succeeds: each of its parts did. The rules are for `bind`, for a test that has to
hold before the computation goes on (`ensure`), and for `map` and `mapM`.
-/

namespace DockerEngine.Outcome

variable {ε α β : Type}

/-- A test that has to hold. -/
def ensure (ok : Bool) (e : ε) : Except ε Unit := if ok then .ok () else .error e

variable {f : α → Except ε β} {x : Except ε α} {b : β}

theorem bind_eq_ok : x >>= f = .ok b ↔ ∃ a, x = .ok a ∧ f a = .ok b := by
  cases x with
  | error e => exact ⟨nofun, fun ⟨_, h, _⟩ => nomatch h⟩
  | ok a => exact ⟨fun h => ⟨a, rfl, h⟩, fun ⟨_, ha, h⟩ => Except.ok.inj ha ▸ h⟩

theorem ensure_eq_ok {ok : Bool} {e : ε} {u : Unit} : ensure ok e = .ok u ↔ ok := by
  cases ok with
  | false => exact ⟨nofun, nofun⟩
  | true => exact ⟨fun _ => rfl, fun _ => rfl⟩

theorem map_eq_ok {f : α → β} (h : x.map f = .ok b) : ∃ a, x = .ok a ∧ f a = b := by
  cases x with
  | error e => cases h
  | ok a => exact ⟨a, rfl, Except.ok.inj h⟩

theorem mapM_eq_ok {l : List α} {r : List β} (h : l.mapM f = .ok r) : l.Forall₂ (f · = .ok ·) r := by
  induction l generalizing r with
  | nil =>
    cases h
    exact .nil
  | cons a l ih =>
    rw [List.mapM_cons] at h
    obtain ⟨b, hb, h⟩ := bind_eq_ok.mp h
    obtain ⟨bs, hbs, h⟩ := bind_eq_ok.mp h
    cases h
    exact .cons hb (ih hbs)

theorem exists_of_isOk (h : x.isOk) : ∃ a, x = .ok a := by
  cases x with
  | error e => cases h
  | ok a => exact ⟨a, rfl⟩

end DockerEngine.Outcome
