import DockerEngine.Lib.Trace

/-!
# Pulls side by side

Any number of `pullV2Tag` calls run in one daemon. Each looks at its layers from the base up and starts a
download for those that are not in the graph. A download enters the pulling pool under the id of its layer
or, if another one is there, waits until that one leaves. When all are started the pull goes through its
layers again: it passes over those it did not download and registers the others, under the lock of the
image. `register` removes what the driver has under the id, creates the layer on its parent, applies the
data and puts the id in the index.

A download leaves the pool when its data is there, before the pull that started it has registered the
layer. A pull that waited for it passes over the layer and goes on to the next one, which it may create on
a parent that the driver has and the index has not (`create_on_unfinished`). `create_on_finished` says that
this is the only way: as long as pulls pass over a layer that was left to another pull only when it is in
the index, every layer is created on a finished parent.

Ids and pulls are of any type. Images are not deleted. The creation of a layer in the driver succeeds
exactly when the driver has the parent.
-/

namespace DockerEngine.Pull

open Trace Option Function

/-! ## The system -/

/-- A layer of a manifest: the id of its image and of its parent. -/
structure LayerRef (I : Type) where
  id : I
  parent : Option I

/-- The layers of a pull from the base up. A parent is the image of the layer below. -/
structure Manifest (I : Type) where
  layers : List (LayerRef I)
  chained : ∀ k l p, layers[k]? = some l → l.parent = some p → ∃ j l', k = j + 1 ∧ layers[j]? = some l' ∧ l'.id = p

/-- What a download ends with. -/
inductive Result where
  /-- The data is in the temporary file. -/
  | layer
  /-- The layer was left to another pull. -/
  | skipped
  | failed
  deriving DecidableEq, Repr

/-- The download of a layer. The one in the pool is named by its pull and its place there. -/
inductive Download (P : Type) where
  /-- No download: the layer has not been looked at, or it was in the graph. -/
  | idle
  | started
  /-- It is in the pool. -/
  | owner
  /-- It waits for another one to leave the pool. -/
  | waiting (other : P × Nat)
  | done (result : Result)
  deriving DecidableEq, Repr

/-- Where a pull stands in the extraction of a layer. -/
inductive Phase where
  | idle
  /-- It has the lock of the image. -/
  | locked
  /-- The driver has the layer. -/
  | created
  /-- The index has the image. -/
  | registered
  | aborted
  deriving DecidableEq, Repr

/-- A pull: the layers it has looked at, its downloads, and where its extraction stands. -/
structure PullState (P : Type) where
  checked : Nat
  downloads : Nat → Download P
  position : Nat
  phase : Phase

/-- The daemon: the index of the graph, the layers of the driver, the pulling pool, the locks of the
images, and the pulls. -/
structure Daemon (P I : Type) where
  index : I → Bool
  driver : I → Bool
  pool : I → Option (P × Nat)
  lock : I → Option P
  pulls : P → PullState P

/-- The steps. The number in a step of a download is the place of its layer. -/
inductive Label (P : Type) where
  /-- A layer is looked at: it is in the graph, or its download is started. -/
  | check (a : P)
  /-- A layer in the graph is not as expected. -/
  | checkFails (a : P)
  | poolAdd (a : P) (k : Nat)
  | wake (a : P) (k : Nat)
  | fetched (a : P) (k : Nat) (ok : Bool)
  | poolRemove (a : P) (k : Nat)
  /-- The extraction passes over a layer: "Already exists". -/
  | pass (a : P)
  /-- The download of the layer failed. -/
  | abort (a : P)
  | lock (a : P)
  /-- The image is in the graph by now, and as expected. -/
  | already (a : P)
  /-- `driver.Create` succeeds. -/
  | create (a : P)
  /-- The data is applied and the image is put in the index. -/
  | commit (a : P)
  /-- The digest and the configuration are stored, and the lock is given back. -/
  | finish (a : P)
  /-- A step under the lock fails. -/
  | fails (a : P)
  deriving DecidableEq, Repr

variable {P I : Type}

/-- The layer that a pull looks at next. -/
def toCheck (M : P → Manifest I) (s : Daemon P I) (a : P) : Option (LayerRef I) :=
  if (s.pulls a).phase = .aborted then none else (M a).layers[(s.pulls a).checked]?

/-- The layer that a pull extracts next, once it has looked at all of them. -/
def toExtract (M : P → Manifest I) (s : Daemon P I) (a : P) (phase : Phase) : Option (LayerRef I) :=
  if (s.pulls a).phase = phase ∧ (s.pulls a).checked = (M a).layers.length then
    (M a).layers[(s.pulls a).position]?
  else none

section Step

variable [DecidableEq P]

section

variable (s : Daemon P I) (a : P)

/-- The pull in its new state. -/
def Daemon.setPull (f : PullState P → PullState P) : Daemon P I :=
  { s with pulls := update s.pulls a (f (s.pulls a)) }

/-- The download in its new state. -/
def Daemon.setDownload (k : Nat) (d : Download P) : Daemon P I :=
  s.setPull a fun p => { p with downloads := update p.downloads k d }

/-- The extraction goes on to the next layer. -/
def Daemon.advance : Daemon P I := s.setPull a fun p => { p with position := p.position + 1, phase := .idle }

/-- The extraction in its new phase. -/
def Daemon.setPhase (phase : Phase) : Daemon P I := s.setPull a fun p => { p with phase := phase }

end

/-- What a step does. -/
def step [DecidableEq I] (M : P → Manifest I) (s : Daemon P I) : Label P → Option (Daemon P I)
  | .check a => do
    let l ← toCheck M s a
    if s.lock l.id ≠ none then none
    else if s.index l.id then some (s.setPull a fun p => { p with checked := p.checked + 1 })
    else
      some (s.setPull a fun p => { p with
        checked := p.checked + 1
        downloads := update p.downloads p.checked .started })
  | .checkFails a => do
    let l ← toCheck M s a
    if s.lock l.id = none ∧ s.index l.id = true then some (s.setPhase a .aborted) else none
  | .poolAdd a k => do
    let l ← (M a).layers[k]?
    if (s.pulls a).downloads k ≠ .started then none
    else
      match s.pool l.id with
      | none =>
        some ({ s with pool := update s.pool l.id (some (a, k)) }.setDownload a k .owner)
      | some other => some (s.setDownload a k (.waiting other))
  | .wake a k => do
    let l ← (M a).layers[k]?
    match (s.pulls a).downloads k with
    | .waiting other => if s.pool l.id = some other then none else some (s.setDownload a k (.done .skipped))
    | _ => none
  | .fetched a k ok =>
    if (s.pulls a).downloads k = .owner then
      some (s.setDownload a k (.done (if ok then .layer else .failed)))
    else none
  | .poolRemove a k => do
    let l ← (M a).layers[k]?
    match (s.pulls a).downloads k with
    | .done _ =>
      if s.pool l.id = some (a, k) then some { s with pool := update s.pool l.id none } else none
    | _ => none
  | .pass a => do
    let _ ← toExtract M s a .idle
    match (s.pulls a).downloads (s.pulls a).position with
    | .idle => some (s.advance a)
    | .done .skipped => some (s.advance a)
    | _ => none
  | .abort a => do
    let _ ← toExtract M s a .idle
    if (s.pulls a).downloads (s.pulls a).position = .done .failed then some (s.setPhase a .aborted)
    else none
  | .lock a => do
    let l ← toExtract M s a .idle
    if (s.pulls a).downloads (s.pulls a).position = .done .layer ∧ s.lock l.id = none then
      some ({ s with lock := update s.lock l.id (some a) }.setPhase a .locked)
    else none
  | .already a => do
    let l ← toExtract M s a .locked
    if s.index l.id then some ({ s with lock := update s.lock l.id none }.advance a) else none
  | .create a => do
    let l ← toExtract M s a .locked
    if s.index l.id then none
    else
      -- what the driver has under the id is removed first
      let driver := update s.driver l.id false
      match l.parent with
      | none => some ({ s with driver := update driver l.id true }.setPhase a .created)
      | some p =>
        if driver p then some ({ s with driver := update driver l.id true }.setPhase a .created)
        else none
  | .commit a => do
    let l ← toExtract M s a .created
    some ({ s with index := update s.index l.id true }.setPhase a .registered)
  | .finish a => do
    let l ← toExtract M s a .registered
    some ({ s with lock := update s.lock l.id none }.advance a)
  | .fails a => do
    let l ← (M a).layers[(s.pulls a).position]?
    let s' := { s with lock := update s.lock l.id none }.setPhase a .aborted
    match (s.pulls a).phase with
    -- an image that is not in the index is removed from the driver again
    | .locked => some (if s.index l.id then s' else { s' with driver := update s.driver l.id false })
    | .created => some { s' with driver := update s.driver l.id false }
    | .registered => some s'
    | _ => none

end Step

/-- A daemon in which no pull has begun. -/
structure Initial (s : Daemon P I) : Prop where
  pool : ∀ i, s.pool i = none
  lock : ∀ i, s.lock i = none
  pulls : ∀ a, s.pulls a = ⟨0, fun _ => .idle, 0, .idle⟩

/-- A step that creates a layer on a parent does so when the parent is in the index. -/
def OnFinished (M : P → Manifest I) (s : Daemon P I) : Label P → Prop
  | .create a => ∀ l ∈ toExtract M s a .locked, ∀ p ∈ l.parent, s.index p = true
  | _ => True

/-- A step that passes over a layer left to another pull does so when the layer is in the index. -/
def PassesFinished (M : P → Manifest I) (s : Daemon P I) : Label P → Prop
  | .pass a => ∀ l ∈ toExtract M s a .idle,
      (s.pulls a).downloads (s.pulls a).position = .done .skipped → s.index l.id = true
  | _ => True

instance decidableOnFinished (M : P → Manifest I) (s : Daemon P I) (l : Label P) : Decidable (OnFinished M s l) := by
  cases l <;> unfold OnFinished <;> infer_instance

instance decidablePassesFinished [DecidableEq P] (M : P → Manifest I) (s : Daemon P I) (l : Label P) :
    Decidable (PassesFinished M s l) := by
  cases l <;> unfold PassesFinished <;> infer_instance

/-! ## What the index has of a pull -/

/-- The index has the layers that were found in the graph, those that the extraction has left behind, and
the one that was just registered. -/
structure Sound (m : Manifest I) (index : I → Bool) (p : PullState P) : Prop where
  found : ∀ k l, k < p.checked → p.downloads k = .idle → m.layers[k]? = some l → index l.id = true
  behind : ∀ k l, k < p.position → m.layers[k]? = some l → index l.id = true
  stored : ∀ l, p.phase = .registered → m.layers[p.position]? = some l → index l.id = true

section Sound

variable {m : Manifest I} {index index' : I → Bool} {p : PullState P}

section

variable (h : Sound m index p)
include h

theorem Sound.mono (hle : ∀ i, index i → index' i) : Sound m index' p where
  found := fun k l hk hd hl => hle _ (h.found k l hk hd hl)
  behind := fun k l hk hl => hle _ (h.behind k l hk hl)
  stored := fun l hp hl => hle _ (h.stored l hp hl)

theorem Sound.register (hat : ∀ l, m.layers[p.position]? = some l → index l.id) :
    Sound m index { p with phase := .registered } :=
  ⟨h.found, h.behind, fun l _ hl => hat l hl⟩

theorem Sound.withDownload (k : Nat) {d : Download P} (hne : d ≠ .idle) :
    Sound m index { p with downloads := update p.downloads k d } := by
  refine ⟨fun j l hj hd hl => ?_, h.behind, h.stored⟩
  change update p.downloads k d j = .idle at hd
  by_cases hjk : j = k
  · subst hjk
    rw [update_self] at hd
    exact absurd hd hne
  · rw [update_of_ne hjk] at hd
    exact h.found j l hj hd hl

/-- A layer is looked at. If no download is started for it, it is in the index. -/
theorem Sound.check (hat : ∀ l, p.downloads p.checked = .idle → m.layers[p.checked]? = some l → index l.id) :
    Sound m index { p with checked := p.checked + 1 } := by
  refine ⟨fun k l hk hd hl => ?_, h.behind, h.stored⟩
  rcases Nat.lt_succ_iff_lt_or_eq.mp hk with hlt | heq
  · exact h.found k l hlt hd hl
  · subst heq
    exact hat l hd hl

/-- The extraction leaves a layer behind that is in the index. -/
theorem Sound.advance (hat : ∀ l, m.layers[p.position]? = some l → index l.id) :
    Sound m index { p with position := p.position + 1, phase := .idle } := by
  refine ⟨h.found, fun k l hk hl => ?_, fun l heq => by cases heq⟩
  rcases Nat.lt_succ_iff_lt_or_eq.mp hk with hlt | heq
  · exact h.behind k l hlt hl
  · subst heq
    exact hat l hl

end

end Sound

section Run

variable {M : P → Manifest I} {s t : Daemon P I}

variable {l : LayerRef I} {a : P}

theorem toExtract_eq_some {phase : Phase} (h : toExtract M s a phase = some l) :
    (s.pulls a).phase = phase ∧ (s.pulls a).checked = (M a).layers.length ∧
      (M a).layers[(s.pulls a).position]? = some l := by
  unfold toExtract at h
  split at h
  case isTrue hcond => exact ⟨hcond.1, hcond.2, h⟩
  case isFalse => cases h

theorem toCheck_eq_some (h : toCheck M s a = some l) :
    (M a).layers[(s.pulls a).checked]? = some l := by
  unfold toCheck at h
  split at h
  · cases h
  · exact h

/-- There is one layer at a place. -/
theorem layer_only {m : Manifest I} {index : I → Bool} {k : Nat} (h : m.layers[k]? = some l) (hl : index l.id) :
    ∀ l', m.layers[k]? = some l' → index l'.id := by
  intro l' h'
  cases h.symm.trans h'
  exact hl

/-- The index has of every pull what it should. -/
def AllSound (M : P → Manifest I) (s : Daemon P I) : Prop := ∀ a, Sound (M a) s.index (s.pulls a)

/-- The pool, the locks and the driver say nothing about the index. -/
theorem AllSound.congr (h : AllSound M s) (hi : t.index = s.index) (hp : t.pulls = s.pulls) : AllSound M t := by
  intro a
  rw [hi, hp]
  exact h a

/-- What a pull has left behind is in the index, and the parent of its next layer is among it. -/
theorem AllSound.onFinished (h : AllSound M s) (l : Label P) : OnFinished M s l := by
  cases l with
  | create a =>
    intro l hl p hp
    obtain ⟨-, -, hlayer⟩ := toExtract_eq_some hl
    obtain ⟨j, l', hj, hl', rfl⟩ := (M a).chained _ l p hlayer hp
    exact (h a).behind j l' (by omega) hl'
  | _ => trivial

variable [DecidableEq P]

section

variable (h : AllSound M s)
include h

/-- A step of one pull that takes nothing out of the index. -/
theorem AllSound.of_pull {a : P} {p : PullState P}
    (hle : ∀ i, s.index i → t.index i) (ht : t.pulls = update s.pulls a p)
    (hp : Sound (M a) t.index p) : AllSound M t := by
  intro b
  rw [ht]
  by_cases hb : b = a
  · subst hb
    rwa [update_self]
  · rw [update_of_ne hb]
    exact (h b).mono hle

theorem AllSound.setPull {a : P} {f : PullState P → PullState P}
    (hf : Sound (M a) s.index (f (s.pulls a))) : AllSound M (s.setPull a f) :=
  h.of_pull (fun _ hi => hi) rfl hf

theorem AllSound.setPhase (a : P) {phase : Phase} (hne : phase ≠ .registered) : AllSound M (s.setPhase a phase) :=
  h.setPull ⟨(h a).found, (h a).behind, fun _ heq => absurd heq hne⟩

theorem AllSound.setDownload (a : P) (k : Nat) {d : Download P} (hne : d ≠ .idle) :
    AllSound M (s.setDownload a k d) :=
  h.setPull ((h a).withDownload k hne)

theorem AllSound.advance (a : P) (hat : ∀ l, (M a).layers[(s.pulls a).position]? = some l → s.index l.id) :
    AllSound M (s.advance a) :=
  h.setPull ((h a).advance hat)

end

/-- A step takes nothing out of what the index has of the pulls, if it passes only over finished layers. -/
theorem step_allSound [DecidableEq I] (s : Daemon P I) (l : Label P) (t : Daemon P I) (h : AllSound M s)
    (hgood : PassesFinished M s l) (hstep : step M s l = some t) : AllSound M t := by
  cases l <;> simp only [step, bind_eq_bind, bind_eq_some_iff, ite_none_left_eq_some,
    ite_none_right_eq_some, some.injEq] at hstep
  case check a =>
    obtain ⟨l, hl, -, hstep⟩ := hstep
    split at hstep
    case isTrue hindex =>
      cases hstep
      apply h.setPull
      exact (h a).check fun l' _ => layer_only (toCheck_eq_some hl) hindex l'
    case isFalse =>
      cases hstep
      -- the download is started before the layer counts as looked at
      have hd := (h a).withDownload (s.pulls a).checked (d := .started) (by simp)
      apply h.setPull
      apply hd.check
      intro l' hidle
      simp at hidle
  case checkFails a =>
    obtain ⟨l, -, -, rfl⟩ := hstep
    exact h.setPhase a (by simp)
  case poolAdd a k =>
    obtain ⟨l, -, -, hstep⟩ := hstep
    split at hstep <;> cases hstep
    · exact AllSound.setDownload (h.congr rfl rfl) a k (by simp)
    · exact h.setDownload a k (by simp)
  case wake a k =>
    obtain ⟨l, -, hstep⟩ := hstep
    split at hstep
    · obtain ⟨-, ⟨⟩⟩ := ite_none_left_eq_some.mp hstep
      exact h.setDownload a k (by simp)
    · cases hstep
  case fetched a k ok =>
    obtain ⟨-, rfl⟩ := hstep
    exact h.setDownload a k (by simp)
  case poolRemove a k =>
    obtain ⟨l, -, hstep⟩ := hstep
    split at hstep
    · obtain ⟨-, ⟨⟩⟩ := ite_none_right_eq_some.mp hstep
      exact h.congr rfl rfl
    · cases hstep
  case pass a =>
    obtain ⟨l, hl, hstep⟩ := hstep
    obtain ⟨-, hchecked, hlayer⟩ := toExtract_eq_some hl
    split at hstep <;> cases hstep
    case h_1 hidle =>
      apply h.advance a
      intro l' hl'
      apply (h a).found _ l' _ hidle hl'
      rw [hchecked]
      exact (List.getElem?_eq_some_iff.mp hl').1
    case h_2 hskipped =>
      exact h.advance a (layer_only hlayer (hgood l hl hskipped))
  case abort a =>
    obtain ⟨l, -, -, rfl⟩ := hstep
    exact h.setPhase a (by simp)
  case lock a =>
    obtain ⟨l, -, -, rfl⟩ := hstep
    exact AllSound.setPhase (h.congr rfl rfl) a (by simp)
  case already a =>
    obtain ⟨l, hl, hindex, rfl⟩ := hstep
    exact AllSound.advance (h.congr rfl rfl) a (layer_only (toExtract_eq_some hl).2.2 hindex)
  case create a =>
    obtain ⟨l, -, -, hstep⟩ := hstep
    split at hstep
    · cases hstep
      exact AllSound.setPhase (h.congr rfl rfl) a (by simp)
    · obtain ⟨-, ⟨⟩⟩ := ite_none_right_eq_some.mp hstep
      exact AllSound.setPhase (h.congr rfl rfl) a (by simp)
  case commit a =>
    obtain ⟨l, hl, rfl⟩ := hstep
    have hle : ∀ i, s.index i → update s.index l.id true i := by
      intro i hi
      rw [update_apply]
      split
      · rfl
      · exact hi
    apply h.of_pull hle rfl
    exact ((h a).mono hle).register (layer_only (toExtract_eq_some hl).2.2 (update_self ..))
  case finish a =>
    obtain ⟨l, hl, rfl⟩ := hstep
    apply AllSound.advance (h.congr rfl rfl)
    intro l' hl'
    exact (h a).stored l' (toExtract_eq_some hl).1 hl'
  case fails a =>
    obtain ⟨l, -, hstep⟩ := hstep
    -- whatever the driver keeps, the pull is over
    have hs' : AllSound M ({ s with lock := update s.lock l.id none }.setPhase a .aborted) :=
      AllSound.setPhase (h.congr rfl rfl) a (by simp)
    split at hstep
    · split at hstep
      all_goals
        cases hstep
        exact hs'.congr rfl rfl
    · cases hstep
      exact hs'.congr rfl rfl
    · cases hstep
      exact hs'
    · cases hstep

/-- As long as pulls pass over a layer that was left to another pull only when it is in the index, a layer
is created in the driver only when its parent is in the index. -/
theorem create_on_finished [DecidableEq I] (M : P → Manifest I) (s : Daemon P I) (h : Initial s)
    (ls : List (Label P)) (hgood : Along (step M) (PassesFinished M) s ls) :
    Along (step M) (OnFinished M) s ls := by
  apply along_of_inv (I := AllSound M) step_allSound (fun s l _ hs _ _ => hs.onFinished l) ?_ hgood
  intro a
  rw [h.pulls a]
  exact ⟨fun _ _ hk => absurd hk (Nat.not_lt_zero _), fun _ _ hk => absurd hk (Nat.not_lt_zero _),
    fun _ heq => by cases heq⟩

end Run

/-! ## Two pulls that share their base -/

/-- The layers 0 and 1, one on the other, or the layer 0 alone. -/
def sharedBase (both : Bool) : Manifest Nat where
  layers := if both then [⟨0, none⟩, ⟨1, some 0⟩] else [⟨0, none⟩]
  chained := by
    intro k l p hl hp
    cases both with
    | false =>
      match k with
      | 0 =>
        cases hl
        cases hp
      | _ + 1 => cases hl
    | true =>
      match k with
      | 0 =>
        cases hl
        cases hp
      | 1 =>
        cases hl
        cases hp
        exact ⟨0, _, rfl, rfl, rfl⟩
      | _ + 2 => cases hl

/-- A daemon with an empty graph. The pull `true` is of both layers, the pull `false` of the base. -/
def emptyDaemon : Daemon Bool Nat where
  index := fun _ => false
  driver := fun _ => false
  pool := fun _ => none
  lock := fun _ => none
  pulls := fun _ => ⟨0, fun _ => .idle, 0, .idle⟩

/-- Both pulls start. The one of both layers waits for the other to download the base, which begins to
register it. -/
def beginShared : List (Label Bool) :=
  [.check false, .check true, .check true, .poolAdd false 0, .poolAdd true 0, .poolAdd true 1,
    .fetched false 0 true, .poolRemove false 0, .wake true 0, .fetched true 1 true, .poolRemove true 1,
    .lock false, .create false]

/-- The rest of the pull of both layers, up to the creation of the second. -/
def createSecond : List (Label Bool) := [.pass true, .lock true, .create true]

theorem create_on_finished_shared :
    Along (step sharedBase) (OnFinished sharedBase) emptyDaemon
      (beginShared ++ [.commit false, .finish false] ++ createSecond) :=
  create_on_finished sharedBase emptyDaemon ⟨fun _ => rfl, fun _ => rfl, fun _ => rfl⟩ _ (by decide)

/-- The second layer is created while the base is in the driver and not in the index. -/
theorem create_on_unfinished :
    Initial emptyDaemon ∧ (exec (step sharedBase) emptyDaemon (beginShared ++ createSecond)).isSome = true ∧
      ¬ Along (step sharedBase) (OnFinished sharedBase) emptyDaemon (beginShared ++ createSecond) := by
  refine ⟨⟨fun _ => rfl, fun _ => rfl, fun _ => rfl⟩, by decide, by decide⟩

end DockerEngine.Pull
