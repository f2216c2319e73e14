import Mathlib

/-!
# Runs of a system that takes labelled steps

A system is a function that says what a step with a given label does, if it can be made. `exec` makes the
steps of a list one after the other. `Along` says that something holds of every step of a run, in the state
the step is made in. The two rules are the induction over runs: what every step keeps holds at the end of a
run (`exec_inv`), and what the invariant gives for one step holds along the run (`along_of_inv`). Both ask
only about steps that meet a condition, so that they also say what holds as long as the condition does.
-/

namespace DockerEngine.Trace

variable {S L : Type} (step : S → L → Option S)

/-- The state after a list of steps, if all of them can be made. -/
def exec : S → List L → Option S
  | s, [] => some s
  | s, l :: ls =>
    match step s l with
    | none => none
    | some s' => exec s' ls

/-- The property holds of each step that the run makes, in the state in which it is made. -/
def Along (P : S → L → Prop) : S → List L → Prop
  | _, [] => True
  | s, l :: ls =>
    match step s l with
    | none => True
    | some s' => P s l ∧ Along P s' ls

instance decidableAlong (P : S → L → Prop) [∀ s l, Decidable (P s l)] :
    ∀ (s : S) (ls : List L), Decidable (Along step P s ls)
  | _, [] => inferInstanceAs (Decidable True)
  | s, l :: ls => by
    unfold Along
    cases step s l with
    | none => exact inferInstanceAs (Decidable True)
    | some s' =>
      have := decidableAlong P s' ls
      exact inferInstanceAs (Decidable (P s l ∧ Along step P s' ls))

variable {step} {I : S → Prop} {Good P : S → L → Prop} {s s' : S} {ls : List L}

variable {l : L} {ls' : List L}

theorem along_cons (h : step s l = some s') : Along step P s (l :: ls) ↔ P s l ∧ Along step P s' ls := by
  rw [Along, h]

theorem exec_cons (h : step s l = some s') : exec step s (l :: ls) = exec step s' ls := by
  rw [exec, h]

/-- A step that cannot be made asks for nothing. -/
theorem along_cons_iff : Along step P s (l :: ls) ↔ ∀ t, step s l = some t → P s l ∧ Along step P t ls := by
  cases hl : step s l with
  | none => exact ⟨fun _ => nofun, fun _ => by rw [Along, hl]; trivial⟩
  | some t =>
    rw [along_cons hl]
    exact ⟨fun h _ ht => Option.some.inj ht ▸ h, fun h => h t rfl⟩

theorem exec_cons_iff : exec step s (l :: ls) = some s' ↔ ∃ t, step s l = some t ∧ exec step t ls = some s' := by
  cases hl : step s l with
  | none =>
    rw [exec, hl]
    exact ⟨nofun, fun ⟨_, ht, _⟩ => nomatch ht⟩
  | some t =>
    rw [exec_cons hl]
    exact ⟨fun h => ⟨t, rfl, h⟩, fun ⟨_, ht, h⟩ => Option.some.inj ht ▸ h⟩

/-- What holds along a run holds along its beginning. -/
theorem along_of_append (h : Along step P s (ls ++ ls')) : Along step P s ls := by
  induction ls generalizing s with
  | nil => trivial
  | cons l ls ih =>
    rw [List.cons_append, along_cons_iff] at h
    exact along_cons_iff.mpr fun t ht => ⟨(h t ht).1, ih (h t ht).2⟩

/-- What holds of the steps of a list in any state holds along the run. -/
theorem along_of_forall (h : ∀ l ∈ ls, ∀ s, P s l) : Along step P s ls := by
  induction ls generalizing s with
  | nil => trivial
  | cons l ls ih =>
    rw [List.forall_mem_cons] at h
    exact along_cons_iff.mpr fun _ _ => ⟨h.1 s, ih h.2⟩

theorem along_and (hgood : Along step Good s ls) (h : Along step P s ls) :
    Along step (fun s l => Good s l ∧ P s l) s ls := by
  induction ls generalizing s with
  | nil => trivial
  | cons l ls ih =>
    rw [along_cons_iff] at hgood h ⊢
    exact fun t ht => ⟨⟨(hgood t ht).1, (h t ht).1⟩, ih (hgood t ht).2 (h t ht).2⟩

/-- What the invariant gives for every good step holds along a good run. -/
theorem along_of_inv (hstep : ∀ s l s', I s → Good s l → step s l = some s' → I s')
    (hprop : ∀ s l s', I s → Good s l → step s l = some s' → P s l) (hs : I s)
    (hgood : Along step Good s ls) : Along step P s ls := by
  induction ls generalizing s with
  | nil => trivial
  | cons l ls ih =>
    rw [along_cons_iff] at hgood ⊢
    intro t ht
    obtain ⟨hl, hrest⟩ := hgood t ht
    exact ⟨hprop s l t hs hl ht, ih (hstep s l t hs hl ht) hrest⟩

section

variable (hstep : ∀ s l s', I s → step s l = some s' → I s')
include hstep

/-- What an invariant of every step gives for a step holds along every run. -/
theorem along_of_kept
    (hprop : ∀ s l s', I s → step s l = some s' → P s l) (hs : I s) : Along step P s ls :=
  along_of_inv (fun s l s' hI _ => hstep s l s' hI) (fun s l s' hI _ => hprop s l s' hI) hs
    (along_of_forall fun _ _ _ => trivial)

/-- Properties that agree on every step agree along every run, also if it takes an invariant to see it. -/
theorem along_congr
    (h : ∀ s l s', I s → step s l = some s' → (Good s l ↔ P s l)) (hs : I s) :
    Along step Good s ls ↔ Along step P s ls := by
  constructor
  · exact along_of_inv (fun s l s' hI _ => hstep s l s' hI) (fun s l s' hI hgood hl => (h s l s' hI hl).mp hgood) hs
  · exact along_of_inv (fun s l s' hI _ => hstep s l s' hI) (fun s l s' hI hP hl => (h s l s' hI hl).mpr hP) hs

end

/-- A property of the state that every good step keeps holds at the end of a good run. -/
theorem exec_inv (hstep : ∀ s l s', I s → Good s l → step s l = some s' → I s') (hs : I s)
    (hgood : Along step Good s ls) (h : exec step s ls = some s') : I s' := by
  induction ls generalizing s with
  | nil =>
    cases h
    exact hs
  | cons l ls ih =>
    obtain ⟨t, ht, h⟩ := exec_cons_iff.mp h
    obtain ⟨hl, hgood⟩ := along_cons_iff.mp hgood t ht
    exact ih (hstep s l t hs hl ht) hgood h

/-- A property of the state that every step keeps holds at the end of every run. -/
theorem exec_kept (hstep : ∀ s l s', I s → step s l = some s' → I s') (hs : I s)
    (h : exec step s ls = some s') : I s' :=
  exec_inv (fun s l s' hI _ => hstep s l s' hI) hs (along_of_forall fun _ _ _ => trivial) h

/-- What a step keeps exactly if it is good holds after every beginning of a list of steps exactly if all of them are
good. -/
theorem forall_prefix_iff {next : S → L → S} (hstep : ∀ s l, I s → (I (next s l) ↔ Good s l)) (hs : I s) :
    (∀ pre, pre <+: ls → I (pre.foldl next s)) ↔ ∀ pre l, pre ++ [l] <+: ls → Good (pre.foldl next s) l := by
  have hsnoc : ∀ pre l, (pre ++ [l]).foldl next s = next (pre.foldl next s) l := fun _ _ => List.foldl_append
  have hbefore : ∀ {pre l}, pre ++ [l] <+: ls → pre <+: ls := ( List.prefix_append _ _).trans
  constructor
  · intro h pre l hpre
    rw [← hstep _ l (h pre (hbefore hpre)), ← hsnoc]
    exact h _ hpre
  · intro h pre hpre
    induction pre using List.reverseRecOn with
    | nil => exact hs
    | append_singleton pre l ih =>
      rw [hsnoc, hstep _ l (ih (hbefore hpre))]
      exact h pre l hpre

/-- A run is its beginning and then the rest. -/
theorem exec_append : exec step s (ls ++ ls') = (exec step s ls).bind fun t => exec step t ls' := by
  induction ls generalizing s with
  | nil => rfl
  | cons l ls ih =>
    cases hl : step s l with
    | none => rw [List.cons_append, exec, exec, hl, Option.bind_none]
    | some t => rw [List.cons_append, exec_cons hl, exec_cons hl, ih]

/-- What holds of each step of a run, wherever the run is cut before it, holds along the run. -/
theorem along_of_split (h : ∀ pre l post t, ls = pre ++ l :: post → exec step s pre = some t → P t l) :
    Along step P s ls := by
  induction ls generalizing s with
  | nil => trivial
  | cons l ls ih =>
    refine along_cons_iff.mpr fun t hl => ⟨h [] l ls s rfl rfl, ih fun pre l' post u hls hexec => ?_⟩
    exact h (l :: pre) l' post u (by rw [hls, List.cons_append]) ((exec_cons hl).trans hexec)

end DockerEngine.Trace
