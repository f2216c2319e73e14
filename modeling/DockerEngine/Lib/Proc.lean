import Mathlib

/-!
# Programs that act on a state and may fail

`Proc σ ε α` is a program over a state `σ` that returns an `α` or fails with an `ε`. A program that
fails keeps the state it had reached, which is how a Go function behaves that returns an error
halfway through its effects.

Programs are reasoned about through `Triple`: from a state with the precondition, a run that
returns ends in the postcondition and a run that fails ends in the failure condition. Taking `False`
for the failure condition states that the program returns. There is one rule for each constructor
and one for loops over a list; a proof about a program applies the rules along its text and does
not evaluate it. `Avoids` is the same for one error that must not come.
-/

namespace DockerEngine

/-- A program over the state `σ` that returns an `α` or fails with an `ε`. -/
def Proc (σ ε α : Type) : Type := σ → Except ε α × σ

namespace Proc

variable {σ ε ε' α β : Type} {m : Proc σ ε α} {f : α → Proc σ ε β} {k : α → Proc σ ε β}

instance : Monad (Proc σ ε) where
  pure a s := (.ok a, s)
  bind m f s :=
    match m s with
    | (.ok a, s') => f a s'
    | (.error e, s') => (.error e, s')

/-- Stop with an error. -/
def fail (e : ε) : Proc σ ε α := fun s => (.error e, s)

/-- Look at the state. -/
def read (f : σ → α) : Proc σ ε α := fun s => (.ok (f s), s)

/-- Run `m`, then `last` whether `m` returned or failed: a deferred call. The outcome is `m`'s. -/
def andFinally (m : Proc σ ε α) (last : Proc σ ε β) : Proc σ ε α := fun s => ((m s).1, (last (m s).2).2)

/-- Run `m` and go on whether it returned or failed. -/
def ignoreError (m : Proc σ ε Unit) : Proc σ ε' Unit := fun s => (.ok (), (m s).2)

/-- Run `m`, and `last` if `m` failed: a deferred call that looks at the error. The outcome is `m`'s. -/
def onError (m : Proc σ ε α) (last : Proc σ ε Unit) : Proc σ ε α := fun s =>
  match m s with
  | (.ok a, s') => (.ok a, s')
  | (.error e, s') => (.error e, (last s').2)

/-- Run `m` and hand its outcome on, for a caller that looks at the error. -/
def result (m : Proc σ ε α) : Proc σ ε' (Except ε α) := fun s => (.ok (m s).1, (m s).2)

/-- The same program with its errors renamed. -/
def mapError (f : ε → ε') (m : Proc σ ε α) : Proc σ ε' α := fun s => ((m s).1.mapError f, (m s).2)

/-- The program over a state with a log behind it, which gets an entry made from the state the
program starts in. -/
def recording {ι : Type} (f : σ → ι) (m : Proc σ ε α) : Proc (σ × List ι) ε α :=
  fun s => ((m s.1).1, ((m s.1).2, s.2 ++ [f s.1]))

/-- The program over a state with a log behind it, which gets the entry `x`. -/
def logging {ι : Type} (x : ι) (m : Proc σ ε α) : Proc (σ × List ι) ε α := m.recording fun _ => x

/-- The program over a state with a log behind it, which is left as it is. -/
def silent {ι : Type} (m : Proc σ ε α) : Proc (σ × List ι) ε α := fun s => ((m s.1).1, ((m s.1).2, s.2))

/-! ## One step of evaluation -/

@[simp] theorem pure_run (a : α) (s : σ) : (pure a : Proc σ ε α) s = (.ok a, s) := rfl

@[simp] theorem fail_run (e : ε) (s : σ) : (fail e : Proc σ ε α) s = (.error e, s) := rfl

@[simp] theorem read_run (f : σ → α) (s : σ) : (read f : Proc σ ε α) s = (.ok (f s), s) := rfl

theorem bind_run_ok {s s' : σ} {a : α} (h : m s = (.ok a, s')) : (m >>= f) s = f a s' := by
  show (match m s with | (.ok a, s') => f a s' | (.error e, s') => (.error e, s')) = _
  rw [h]

theorem bind_run_error {s s' : σ} {e : ε} (h : m s = (.error e, s')) : (m >>= f) s = (.error e, s') := by
  show (match m s with | (.ok a, s') => f a s' | (.error e, s') => (.error e, s')) = _
  rw [h]

theorem bind_run_eq_ok {s s' : σ} {b : β} (h : (m >>= f) s = (.ok b, s')) :
    ∃ a s₁, m s = (.ok a, s₁) ∧ f a s₁ = (.ok b, s') := by
  rcases hm : m s with ⟨e | a, s₁⟩
  · cases (bind_run_error hm).symm.trans h
  · exact ⟨a, s₁, rfl, (bind_run_ok hm).symm.trans h⟩

theorem forM_cons_ok {ι : Type} {g : ι → Proc σ ε PUnit} {x : ι} {l : List ι} {s s' : σ} {u : PUnit}
    (h : g x s = (.ok u, s')) : (x :: l).forM g s = l.forM g s' := bind_run_ok h

theorem forM_cons_error {ι : Type} {g : ι → Proc σ ε PUnit} {x : ι} {l : List ι} {s s' : σ} {e : ε}
    (h : g x s = (.error e, s')) : (x :: l).forM g s = (.error e, s') := bind_run_error h

theorem mapError_run_ok {f : ε → ε'} {s s' : σ} {a : α} (h : m s = (.ok a, s')) : m.mapError f s = (.ok a, s') := by
  simp only [mapError, h]
  rfl

theorem mapError_run_error {f : ε → ε'} {s s' : σ} {e : ε} (h : m s = (.error e, s')) :
    m.mapError f s = (.error (f e), s') := by
  simp only [mapError, h]
  rfl

@[simp] theorem read_bind_run (g : σ → α) (f : α → Proc σ ε β) (s : σ) :
    ((read g : Proc σ ε α) >>= f) s = f (g s) s := rfl

/-! ## Triples -/

/-- An outcome with `Q` if the run returned, with `E` if it failed. -/
def Ends (Q : α → σ → Prop) (E : σ → Prop) : Except ε α × σ → Prop
  | (.ok a, s) => Q a s
  | (.error _, s) => E s

/-- From a state with `P`, a run of `m` that returns ends with `Q` and one that fails with `E`. -/
def Triple (P : σ → Prop) (m : Proc σ ε α) (Q : α → σ → Prop) (E : σ → Prop) : Prop :=
  ∀ s, P s → (∀ a s', m s = (.ok a, s') → Q a s') ∧ (∀ e s', m s = (.error e, s') → E s')

/-- The program keeps `I`, whether it returns or fails. -/
abbrev Preserves (I : σ → Prop) (m : Proc σ ε α) : Prop := Triple I m (fun _ => I) I

namespace Triple

variable {P P' : σ → Prop} {Q Q' : α → σ → Prop} {R : β → σ → Prop} {E E' : σ → Prop}

/-- A triple, read off the outcome of each run. -/
theorem iff_ends : Triple P m Q E ↔ ∀ s, P s → Ends Q E (m s) := by
  refine forall₂_congr fun s _ => ?_
  rcases m s with ⟨e | a, s'⟩
  · exact ⟨fun h => h.2 e s' rfl, fun h => ⟨nofun, fun _ _ he => by cases he; exact h⟩⟩
  · exact ⟨fun h => h.1 a s' rfl, fun h => ⟨fun _ _ ha => by cases ha; exact h, nofun⟩⟩

/-- Consequence. -/
theorem mono (h : Triple P m Q E) (hP : ∀ s, P' s → P s)
    (hQ : ∀ a s, Q a s → Q' a s) (hE : ∀ s, E s → E' s) : Triple P' m Q' E' := by
  intro s hs
  obtain ⟨hok, herr⟩ := h s (hP s hs)
  exact ⟨fun a s' hm => hQ a s' (hok a s' hm), fun e s' hm => hE s' (herr e s' hm)⟩

/-- A property of the state a run ends in, whatever its outcome. -/
theorem iff_snd {R : σ → Prop} : Triple P m (fun _ => R) R ↔ ∀ s, P s → R (m s).2 := by
  refine iff_ends.trans (forall₂_congr fun s _ => ?_)
  rcases m s with ⟨e | a, s'⟩
  · rfl
  · rfl

theorem of_snd {R : σ → Prop} (h : ∀ s, P s → R (m s).2) : Triple P m (fun _ => R) R := iff_snd.mpr h

theorem snd {R : σ → Prop} (h : Triple P m (fun _ => R) R) {s : σ} (hs : P s) : R (m s).2 := iff_snd.mp h s hs

/-- A stronger precondition. -/
theorem pre (h : Triple P m Q E) (hP : ∀ s, P' s → P s) : Triple P' m Q E := fun s hs => h s (hP s hs)

/-- A weaker postcondition. -/
theorem post (h : Triple P m Q E) (hQ : ∀ a s, Q a s → Q' a s) : Triple P m Q' E := h.mono (fun _ h => h) hQ fun _ h => h

/-- A fact of the precondition that does not look at the state. -/
theorem fact {φ : Prop} (h : φ → Triple P m Q E) : Triple (fun s => φ ∧ P s) m Q E := fun s hs => h hs.1 s hs.2

/-- A program that cannot fail returns, with its postcondition. -/
theorem run (h : Triple P m Q fun _ => False) {s : σ} (hs : P s) : ∃ a s', m s = (.ok a, s') ∧ Q a s' := by
  obtain ⟨hok, herr⟩ := h s hs
  rcases hm : m s with ⟨e | a, s'⟩
  · exact (herr e s' hm).elim
  · exact ⟨a, s', rfl, hok a s' hm⟩

/-- The converse. -/
theorem of_run (h : ∀ s, P s → ∃ a s', m s = (.ok a, s') ∧ Q a s') : Triple P m Q E := by
  refine iff_ends.mpr fun s hs => ?_
  obtain ⟨a, s', hm, hQ⟩ := h s hs
  rw [hm]
  exact hQ

theorem pure (a : α) (h : ∀ s, P s → Q a s) : Triple P (Pure.pure a : Proc σ ε α) Q E := iff_ends.mpr h

theorem fail (e : ε) (h : ∀ s, P s → E s) : Triple P (fail e : Proc σ ε α) Q E := iff_ends.mpr h

/-- Sequence. -/
theorem bind (hm : Triple P m Q E) (hf : ∀ a, Triple (Q a) (f a) R E) : Triple P (m >>= f) R E := by
  refine iff_ends.mpr fun s hs => ?_
  obtain ⟨hok, herr⟩ := hm s hs
  rcases hms : m s with ⟨e | a, s₁⟩
  · rw [bind_run_error hms]
    exact herr e s₁ hms
  · rw [bind_run_ok hms]
    exact iff_ends.mp (hf a) s₁ (hok a s₁ hms)

/-- Reading the state and going on: what was read is known. -/
theorem read_bind {f : σ → α}
    (h : ∀ v, Triple (fun s => P s ∧ f s = v) (k v) R E) : Triple P (read f >>= k) R E :=
  fun s hs => h (f s) s ⟨hs, rfl⟩

/-- Reading the state and going on with the same precondition. -/
theorem read_any {f : σ → α} (h : ∀ v, Triple P (k v) R E) : Triple P (read f >>= k) R E :=
  read_bind fun v => (h v).pre fun _ hs => hs.1

/-- Reading the state where the precondition says what will be read. -/
theorem read_bind_of_eq {f : σ → α} {v : α} (hv : ∀ s, P s → f s = v)
    (h : Triple P (k v) R E) : Triple P (read f >>= k) R E := by
  refine read_bind fun w s hs => ?_
  have hw : w = v := hs.2.symm.trans (hv s hs.1)
  exact hw ▸ h s hs.1

theorem mapError {f : ε → ε'} (hm : Triple P m Q E) : Triple P (m.mapError f) Q E := by
  refine iff_ends.mpr fun s hs => ?_
  obtain ⟨hok, herr⟩ := hm s hs
  rcases hms : m s with ⟨e | a, s₁⟩
  · rw [mapError_run_error hms]
    exact herr e s₁ hms
  · rw [mapError_run_ok hms]
    exact hok a s₁ hms

theorem ignoreError {m : Proc σ ε Unit} {R : σ → Prop} (h : Triple P m (fun _ => R) R) :
    Triple P (m.ignoreError : Proc σ ε' Unit) (fun _ => R) E :=
  iff_ends.mpr (iff_snd.mp h)

theorem result (h : Triple P m Q E) :
    Triple P (m.result : Proc σ ε' (Except ε α))
      (fun r s => (∀ a, r = .ok a → Q a s) ∧ ∀ e, r = .error e → E s) E' := by
  intro s hs
  obtain ⟨hok, herr⟩ := h s hs
  refine ⟨fun r s' hm => ?_, fun e s' hm => ?_⟩
  · cases hm
    exact ⟨fun a ha => hok a _ (Prod.ext ha rfl), fun e he => herr e _ (Prod.ext he rfl)⟩
  · cases hm

theorem onError {last : Proc σ ε Unit} (hm : Triple P m Q E)
    (hlast : Preserves E last) : Triple P (m.onError last) Q E := by
  refine iff_ends.mpr fun s hs => ?_
  obtain ⟨hok, herr⟩ := hm s hs
  rcases hms : m s with ⟨e | a, s₁⟩
  · simp only [Proc.onError, hms]
    exact hlast.snd (herr e s₁ hms)
  · simp only [Proc.onError, hms]
    exact hok a s₁ hms

/-- A loop over a list that carries a value keeps its invariant. -/
theorem foldlM {ι : Type} {f : α → ι → Proc σ ε α} {I : α → σ → Prop} (l : List ι)
    (step : ∀ i ∈ l, ∀ a, Triple (I a) (f a i) I E) (a : α) : Triple (I a) (l.foldlM f a) I E := by
  induction l generalizing a with
  | nil => exact .pure a fun _ h => h
  | cons i l ih =>
    rw [List.foldlM_cons]
    exact (step i (by simp) a).bind fun b => ih (List.forall_mem_cons.mp step).2 b

/-- A loop over a list keeps its invariant. -/
theorem forM {ι : Type} {f : ι → Proc σ ε PUnit} {I : σ → Prop} (l : List ι)
    (step : ∀ i ∈ l, Triple I (f i) (fun _ => I) E) : Triple I (l.forM f) (fun _ => I) E := by
  induction l with
  | nil => exact .pure _ fun _ h => h
  | cons i l ih =>
    exact (step i (by simp)).bind fun _ => ih (List.forall_mem_cons.mp step).2

/-- A deferred call that keeps both outcomes of the program before it. -/
theorem andFinally {last : Proc σ ε β} (hm : Triple P m Q E)
    (hQ : ∀ a, Preserves (Q a) last) (hE : Preserves E last) :
    Triple P (m.andFinally last) Q E := by
  refine iff_ends.mpr fun s hs => ?_
  obtain ⟨hok, herr⟩ := hm s hs
  show Ends Q E ((m s).1, (last (m s).2).2)
  rcases hms : m s with ⟨e | a, s₁⟩
  · exact hE.snd (herr e s₁ hms)
  · exact (hQ a).snd (hok a s₁ hms)

theorem logging {ι : Type} {x : ι} {I J : List ι → Prop} (h : ∀ l, I l → J (l ++ [x])) :
    Triple (fun s => I s.2) (m.logging x) (fun _ s => J s.2) (fun s => J s.2) :=
  .of_snd fun s => h s.2

theorem silent {ι : Type} {I : List ι → Prop} : Preserves (fun s => I s.2) m.silent := .of_snd fun _ hs => hs

end Triple

/-! ## An error that never comes -/

/-- From a state with `P` a run of `m` does not fail with `x`, and if it returns it ends with `Q`. -/
def Avoids (x : ε) (P : σ → Prop) (m : Proc σ ε α) (Q : α → σ → Prop) : Prop :=
  ∀ s, P s → (m s).1 ≠ .error x ∧ ∀ a s', m s = (.ok a, s') → Q a s'

namespace Avoids

variable {x : ε} {P : σ → Prop} {Q : α → σ → Prop} {R : β → σ → Prop}

theorem pure (a : α) (h : ∀ s, P s → Q a s) : Avoids x P (Pure.pure a) Q := by
  intro s hs
  refine ⟨nofun, fun a' s' hm => ?_⟩
  cases hm
  exact h s hs

theorem fail {e : ε} (he : e ≠ x) : Avoids x P (fail e) Q := by
  intro s _
  refine ⟨fun h => ?_, nofun⟩
  cases h
  exact he rfl

theorem bind (hm : Avoids x P m Q) (hf : ∀ a, Avoids x (Q a) (f a) R) : Avoids x P (m >>= f) R := by
  intro s hs
  obtain ⟨hne, hok⟩ := hm s hs
  rcases hms : m s with ⟨e | a, s₁⟩
  · rw [bind_run_error hms]
    rw [hms] at hne
    refine ⟨fun h => hne ?_, nofun⟩
    cases h
    rfl
  · rw [bind_run_ok hms]
    exact hf a s₁ (hok a s₁ hms)

theorem read_bind {f : σ → α}
    (h : ∀ v, Avoids x (fun s => P s ∧ f s = v) (k v) R) : Avoids x P (read f >>= k) R :=
  fun s hs => h (f s) s ⟨hs, rfl⟩

/-- A program whose errors all get other names. -/
theorem mapError {x : ε'} {f : ε → ε'} {E : σ → Prop} (hf : ∀ e, f e ≠ x)
    (hm : Triple P m Q E) : Avoids x P (m.mapError f) Q := by
  intro s hs
  refine ⟨fun h => ?_, fun a s' h => (hm.mapError s hs).1 a s' h⟩
  rcases hms : m s with ⟨e | a, s₁⟩
  · simp only [Proc.mapError, hms] at h
    cases h
    exact hf e rfl
  · simp only [Proc.mapError, hms] at h
    cases h

theorem ignoreError {m : Proc σ ε Unit} {Q : σ → Prop} (h : ∀ s, P s → Q (m s).2) :
    Avoids x P (m.ignoreError : Proc σ ε Unit) (fun _ => Q) := by
  intro s hs
  refine ⟨nofun, fun a s' hm => ?_⟩
  cases hm
  exact h s hs

end Avoids

/-! ## Properties that programs take from their parts -/

/-- A program of parts with `C` has `C`. -/
structure Compositional (C : Proc σ ε Unit → Prop) : Prop where
  skip : C (pure ())
  seq {m k : Proc σ ε Unit} : C m → C k → C (m >>= fun _ => k)
  look {f : σ → Bool} {k : Bool → Proc σ ε Unit} : (∀ b, C (k b)) → C (read f >>= k)

theorem Compositional.forM {ι : Type} {C : Proc σ ε Unit → Prop} (hC : Compositional C) {f : ι → Proc σ ε Unit}
    (h : ∀ i, C (f i)) : ∀ l : List ι, C (l.forM f)
  | [] => hC.skip
  | i :: l => hC.seq (h i) (hC.forM h l)

theorem Triple.compositional (I : σ → Prop) : Compositional fun m : Proc σ ε Unit => Preserves I m :=
  ⟨.pure _ fun _ h => h, fun hm hk => hm.bind fun _ => hk, .read_any⟩

theorem Avoids.compositional (x : ε) :
    Compositional fun m : Proc σ ε Unit => Avoids x (fun _ => True) m fun _ _ => True :=
  ⟨.pure _ fun _ h => h, fun hm hk => hm.bind fun _ => hk, fun h => .read_bind fun v s _ => h v s trivial⟩

/-! ## Recorded runs -/

/-- If every entry of the log meets `T`, the state has `P` and every entry has `G`. -/
def Recorded {ι : Type} (T G : ι → Prop) (P : σ → Prop) (s : σ × List ι) : Prop :=
  (∀ x ∈ s.2, T x) → P s.1 ∧ ∀ x ∈ s.2, G x

section Recorded

variable {ι : Type} {T G : ι → Prop} {P : σ → Prop} {m : Proc σ ε α} {f : σ → ι}

theorem Triple.recording (hG : ∀ s, P s → G (f s)) (h : Triple (fun s => P s ∧ T (f s)) m (fun _ => P) P) :
    Preserves (Recorded T G P) (m.recording f) := by
  refine .of_snd fun s hs hT => ?_
  obtain ⟨hP, hall⟩ := hs (List.forall_mem_append.mp hT).1
  refine ⟨h.snd ⟨hP, hT _ (by simp [Proc.recording])⟩, fun x hx => ?_⟩
  rcases List.mem_append.mp hx with hx | hx
  · exact hall x hx
  · rw [List.mem_singleton.mp hx]; exact hG s.1 hP

theorem Triple.silent_recorded (h : Preserves P m) : Preserves (Recorded T G P) m.silent := by
  refine .of_snd fun s hs hT => ?_
  obtain ⟨hP, hall⟩ := hs hT
  exact ⟨h.snd hP, hall⟩

end Recorded

/-! ## Runs without their log -/

/-- The program with a log does what the program without it does. -/
def Erases {ι : Type} (m' : Proc (σ × List ι) ε α) (m : Proc σ ε α) : Prop :=
  ∀ s l, (m' (s, l)).1 = (m s).1 ∧ (m' (s, l)).2.1 = (m s).2

namespace Erases

variable {ι : Type} {m : Proc σ ε α} {m' : Proc (σ × List ι) ε α}

theorem pure (a : α) : Erases (Pure.pure a : Proc (σ × List ι) ε α) (Pure.pure a) := fun _ _ => ⟨rfl, rfl⟩

theorem fail (e : ε) : Erases (fail e : Proc (σ × List ι) ε α) (fail e) := fun _ _ => ⟨rfl, rfl⟩

theorem read (f : σ → α) : Erases (read fun s => f s.1 : Proc (σ × List ι) ε α) (read f) :=
  fun _ _ => ⟨rfl, rfl⟩

theorem recording (f : σ → ι) : Erases (m.recording f) m := fun _ _ => ⟨rfl, rfl⟩

theorem silent : Erases (m.silent : Proc (σ × List ι) ε α) m := fun _ _ => ⟨rfl, rfl⟩

theorem bind {k' : α → Proc (σ × List ι) ε β} (h : Erases m' m)
    (hk : ∀ a, Erases (k' a) (k a)) : Erases (m' >>= k') (m >>= k) := by
  intro s l
  obtain ⟨h₁, h₂⟩ := h s l
  rcases hm : m s with ⟨e | a, t⟩
  all_goals
    rcases hm' : m' (s, l) with ⟨r, t', l'⟩
    rw [hm, hm'] at h₁ h₂
    simp only at h₁ h₂
    subst h₁ h₂
  · rw [bind_run_error hm, bind_run_error hm']
    exact ⟨rfl, rfl⟩
  · rw [bind_run_ok hm, bind_run_ok hm']
    exact hk a _ l'

theorem forM {κ : Type} {f : κ → Proc σ ε PUnit} {f' : κ → Proc (σ × List ι) ε PUnit} (l : List κ)
    (h : ∀ i, Erases (f' i) (f i)) : Erases (l.forM f') (l.forM f) := by
  induction l with
  | nil => exact .pure _
  | cons i l ih => exact (h i).bind fun _ => ih

end Erases

end Proc

end DockerEngine
