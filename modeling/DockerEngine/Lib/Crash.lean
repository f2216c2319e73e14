import DockerEngine.Lib.Proc

/-!
# Programs that a crash can stop

A machine has a memory and a disk. A program changes the disk one write at a time, and each write happens as
a whole. A crash stops the program between two writes: the memory is gone and the disk is as the last write
left it. To say what can be found on the disk afterwards, the machine keeps the disks that it had before;
`crashes` lists all the disks that a crash during a run can leave behind.

`Safe C P m Q E` is a triple for such programs: on top of what it says about the outcomes, every disk of the
run satisfies `C`. The only rule that asks anything about `C` is the one for a write. `Safe.crash` turns a
triple into a statement about the disks after a crash.
-/

namespace DockerEngine.Crash

open Proc

/-- A machine with the memory `mem` and the disk `disk`, and the disks it had before in this run. -/
structure Machine (μ δ : Type) where
  mem : μ
  disk : δ
  past : List δ

/-- A program of a machine. -/
abbrev Prog (μ δ ε α : Type) : Type := Proc (Machine μ δ) ε α

variable {μ δ ε α β : Type}

/-- One change of the disk. -/
def write (f : δ → δ) : Prog μ δ ε Unit := fun s => (.ok (), ⟨s.mem, f s.disk, s.past ++ [s.disk]⟩)

/-- Look at the memory and the disk. -/
def look (f : μ → δ → α) : Prog μ δ ε α := read fun s => f s.mem s.disk

/-- Change the memory. -/
def remember (f : μ → μ) : Prog μ δ ε Unit := fun s => (.ok (), ⟨f s.mem, s.disk, s.past⟩)

/-- The disks that a crash during a run can leave behind, the oldest first. -/
def crashes (m : Prog μ δ ε α) (mem : μ) (disk : δ) : List δ :=
  (m ⟨mem, disk, []⟩).2.past ++ [(m ⟨mem, disk, []⟩).2.disk]

/-! ## Triples -/

/-- The memory and the disk satisfy `P`, and all disks of the run so far satisfy `C`. -/
def Holds (C : δ → Prop) (P : μ → δ → Prop) (s : Machine μ δ) : Prop := P s.mem s.disk ∧ C s.disk ∧ ∀ d ∈ s.past, C d

/-- From a memory and a disk with `P`, a run of `m` that returns ends with `Q` and one that fails with `E`,
and every disk of the run satisfies `C`. -/
def Safe (C : δ → Prop) (P : μ → δ → Prop) (m : Prog μ δ ε α) (Q : α → μ → δ → Prop) (E : μ → δ → Prop) : Prop :=
  m.Triple (Holds C P) (fun a => Holds C (Q a)) (Holds C E)

namespace Safe

variable {C : δ → Prop} {P P' : μ → δ → Prop} {Q Q' : α → μ → δ → Prop} {R : β → μ → δ → Prop}
  {E E' : μ → δ → Prop}

variable {m : Prog μ δ ε α}

section

variable (h : Safe C P m Q E) (hP : ∀ v d, P' v d → P v d)
include h hP

theorem mono
    (hQ : ∀ a v d, Q a v d → Q' a v d) (hE : ∀ v d, E v d → E' v d) : Safe C P' m Q' E' :=
  Triple.mono h (fun _ hs => ⟨hP _ _ hs.1, hs.2⟩) (fun a _ hs => ⟨hQ a _ _ hs.1, hs.2⟩)
    fun _ hs => ⟨hE _ _ hs.1, hs.2⟩

theorem pre : Safe C P' m Q E :=
  h.mono hP (fun _ _ _ h => h) fun _ _ h => h

end

theorem pure (a : α) (h : ∀ v d, P v d → Q a v d) : Safe C P (Pure.pure a : Prog μ δ ε α) Q E :=
  Triple.pure a fun _ hs => ⟨h _ _ hs.1, hs.2⟩

theorem fail (e : ε) (h : ∀ v d, P v d → E v d) : Safe C P (fail e : Prog μ δ ε α) Q E :=
  Triple.fail e fun _ hs => ⟨h _ _ hs.1, hs.2⟩

theorem bind {f : α → Prog μ δ ε β} (hm : Safe C P m Q E)
    (hf : ∀ a, Safe C (Q a) (f a) R E) : Safe C P (m >>= f) R E :=
  Triple.bind hm hf

/-- A fact of the precondition that does not look at the state. -/
theorem fact {φ : Prop} (h : φ → Safe C P m Q E) : Safe C (fun v d => φ ∧ P v d) m Q E :=
  fun s hs => h hs.1.1 s ⟨hs.1.2, hs.2⟩

/-- A memory and a disk fixed in advance. -/
theorem start {m : Prog μ δ ε α} (h : ∀ v d, P v d → Safe C (fun v' d' => v' = v ∧ d' = d) m Q E) : Safe C P m Q E :=
  fun s hs => h s.mem s.disk hs.1 s ⟨⟨rfl, rfl⟩, hs.2⟩

/-- From a state that cannot be. -/
theorem absurd (m : Prog μ δ ε α) : Safe C (fun _ _ => False) m Q E := fun _ hs => hs.1.elim

/-- Looking at the state and going on: what was seen is known. -/
theorem look_bind {f : μ → δ → α} {k : α → Prog μ δ ε β}
    (h : ∀ a, Safe C (fun v d => P v d ∧ f v d = a) (k a) R E) : Safe C P (look f >>= k) R E :=
  Triple.read_bind fun a => .pre (h a) fun _ hs => ⟨⟨hs.1.1, hs.2⟩, hs.1.2⟩

/-- Looking at the state where the precondition says what will be seen. -/
theorem look_bind_of_eq {f : μ → δ → α} {k : α → Prog μ δ ε β} {a : α} (ha : ∀ v d, P v d → f v d = a)
    (h : Safe C P (k a) R E) : Safe C P (look f >>= k) R E :=
  Triple.read_bind_of_eq (fun _ hs => ha _ _ hs.1) h

/-- A write takes a disk that may be left behind to another one. -/
theorem write {f : δ → δ} {Q : Unit → μ → δ → Prop}
    (h : ∀ v d, P v d → C d → C (f d) ∧ Q () v (f d)) : Safe C P (write f : Prog μ δ ε Unit) Q E := by
  refine Triple.iff_ends.mpr fun s hs => ?_
  obtain ⟨hP, hC, hpast⟩ := hs
  obtain ⟨hC', hQ⟩ := h _ _ hP hC
  exact ⟨hQ, hC', List.forall_mem_append.mpr ⟨hpast, List.forall_mem_singleton.mpr hC⟩⟩

theorem remember {f : μ → μ} {Q : Unit → μ → δ → Prop} (h : ∀ v d, P v d → Q () (f v) d) :
    Safe C P (remember f : Prog μ δ ε Unit) Q E :=
  Triple.iff_ends.mpr fun _ hs => ⟨h _ _ hs.1, hs.2⟩

variable {A : μ → δ → Prop}

theorem ignoreError {m : Prog μ δ ε Unit} (h : Safe C P m (fun _ => A) A) :
    Safe C P (m.ignoreError : Prog μ δ ε Unit) (fun _ => A) E :=
  Triple.ignoreError h

theorem result (h : Safe C P m Q E) : Safe C P (m.result : Prog μ δ ε (Except ε α))
      (fun r v d => (∀ a, r = .ok a → Q a v d) ∧ ∀ e, r = .error e → E v d) E' :=
  (Triple.result h).mono (fun _ hs => hs) (fun r s hr => by
    cases r with
    | ok a =>
      have hok := hr.1 a rfl
      exact ⟨⟨fun b hb => by cases hb; exact hok.1, nofun⟩, hok.2⟩
    | error e =>
      have herr := hr.2 e rfl
      exact ⟨⟨nofun, fun _ _ => herr.1⟩, herr.2⟩) fun _ hs => hs

theorem onError {last : Prog μ δ ε Unit} (hm : Safe C P m Q E)
    (hlast : Safe C E last (fun _ => E) E) : Safe C P (m.onError last) Q E :=
  Triple.onError hm hlast

/-- A loop over a list keeps its invariant. -/
theorem forM {ι : Type} {f : ι → Prog μ δ ε PUnit} (l : List ι)
    (step : ∀ i ∈ l, Safe C A (f i) (fun _ => A) E) : Safe C A (l.forM f) (fun _ => A) E :=
  Triple.forM l step

variable {v : μ} {d : δ}

/-- What the program ends with when both outcomes are alike. -/
theorem done (h : Safe C P m (fun _ => A) A) (hP : P v d) (hC : C d) : A (m ⟨v, d, []⟩).2.mem (m ⟨v, d, []⟩).2.disk :=
  (Triple.snd h (s := ⟨v, d, []⟩) ⟨hP, hC, nofun⟩).1

/-- A program that cannot fail returns. -/
theorem returns (h : Safe C P m Q fun _ _ => False) (hP : P v d)
    (hC : C d) : ∃ a s, m ⟨v, d, []⟩ = (.ok a, s) ∧ Q a s.mem s.disk := by
  have hm : m.Triple (Holds C P) (fun a => Holds C (Q a)) fun _ => False :=
    Triple.mono h (fun _ h => h) (fun _ _ h => h) fun _ h => h.1
  obtain ⟨a, s, hrun, hQ⟩ := hm.run (s := ⟨v, d, []⟩) ⟨hP, hC, nofun⟩
  exact ⟨a, s, hrun, hQ.1⟩

/-- A crash leaves a disk with `C` behind. -/
theorem crash (h : Safe C P m Q E) (hP : P v d) (hC : C d) : ∀ d' ∈ crashes m v d, C d' := by
  have hdone := Triple.snd (.mono h (fun _ hs => hs) (fun _ _ hs => hs.2) fun _ hs => hs.2)
    (s := ⟨v, d, []⟩) ⟨hP, hC, nofun⟩
  exact List.forall_mem_append.mpr ⟨hdone.2, List.forall_mem_singleton.mpr hdone.1⟩

end Safe

end DockerEngine.Crash
