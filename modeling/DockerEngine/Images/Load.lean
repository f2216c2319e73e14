import DockerEngine.Images.TagFile

/-!
# Loading images from an archive

`TagStore.Load` unpacks an archive and loads the image of each of its directories, with `recursiveLoad`. The
image is described by a file `json` in the directory, and so is its parent, whose text is the name of the next
directory to load from. While an image is loaded its id is in the pool; a load that finds the id of its image
there waits for it to leave.

The parent of an image is not checked before it is used, and so two things can go wrong. A load that comes
back to an id waits for itself: `load_returns_iff`. A parent may be a path that leads out of the archive:
`load_below_iff`. Both say for which directories that happens. It depends on the images that were registered
for the directories before, and so the condition is on the state in which the directory has its turn.

The tree that the archive was unpacked to is given, as any tree of files. Load runs alone. The storage driver
takes or refuses each image. Waiting for ever is an error of the model, and so is a recursion that does not end
within one more round than there are images; the latter never comes.
-/

namespace DockerEngine.Images.Load

open Filepath List Proc TagStore

/-! ## The model -/

/-- What a path leads to: a file, with the image if it is the JSON of one, or a directory. -/
inductive Node where
  | file (img : Option Image)
  | directory
  deriving DecidableEq, Repr

/-- The files of the machine. The images that they describe are finitely many. -/
structure Disk where
  node : Str → Option Node
  images : List Image
  described : ∀ path img, node path = some (.file (some img)) → img ∈ images

/-- The file `repositories` of an archive: an entry leads from a repository and a tag to an image. -/
inductive RepositoriesFile where
  | missing
  | unreadable
  | undecodable
  | entries (refs : List Ref)

/-- What a load works on. -/
structure Unpacked where
  /-- The temporary directory, with the archive in its directory `repo`. -/
  tmpImageDir : Str
  absolute : isAbs tmpImageDir = true
  cleaned : clean tmpImageDir = tmpImageDir
  disk : Disk
  /-- The directories in `repo`. -/
  dirs : List Str
  proper : ∀ d ∈ dirs, Proper d
  repositories : RepositoriesFile
  /-- Whether the image can be registered in the graph. -/
  accepts : Graph → Image → Bool
  /-- Whether the file of the tag store can be written. -/
  writes : Bool

namespace Unpacked

/-- The directory of the archive. -/
def repoDir (w : Unpacked) : Str := join [w.tmpImageDir, "repo".toList]

/-- The description of an image. -/
def jsonPath (w : Unpacked) (address : Str) : Str := join [w.tmpImageDir, "repo".toList, address, "json".toList]

/-- The layer of an image. -/
def layerPath (w : Unpacked) (address : Str) : Str := join [w.tmpImageDir, "repo".toList, address, "layer.tar".toList]

end Unpacked

/-- The errors of a load. -/
inductive LoadErr where
  | readFile (path : Str)
  | openFile (path : Str)
  | unmarshal
  /-- "image ID '" + id + "' is invalid". -/
  | invalidID (id : Str)
  | register (id : Str)
  | tag (e : TagErr)
  | openRepositories
  | decode
  /-- The load waits for itself. -/
  | waiting (id : Str)
  /-- The recursion goes on for ever. -/
  | endless
  deriving DecidableEq, Repr

/-- The state: the graph, the tag store, the ids whose layers are in the pulling pool, and the paths that were
opened. -/
structure LoadState where
  graph : Graph
  tags : TagStore
  pool : List Str
  opened : List Str

/-- The state in which a load runs alone. -/
def LoadState.alone (g : Graph) (tags : TagStore) : LoadState := ⟨g, tags, [], []⟩

section

variable (w : Unpacked) (path : Str)

/-- Open a path, whether there is something or not. -/
def openPath : Proc LoadState LoadErr Unit := fun s =>
  (.ok (), { s with opened := s.opened ++ [path] })

/-- `ioutil.ReadFile`. -/
def readFile : Proc LoadState LoadErr (Option Image) := do
  openPath path
  match w.disk.node path with
  | some (.file img) => pure img
  | some .directory => fail (.readFile path)
  | none => fail (.readFile path)

/-- `os.Open`. -/
def openFile : Proc LoadState LoadErr Unit := do
  openPath path
  match w.disk.node path with
  | some _ => pure ()
  | none => fail (.openFile path)

/-- Whether `LookupImage` finds an image. -/
def found (N : Naming) (name : Str) : Proc LoadState LoadErr Bool := fun s =>
  (.ok ((lookupImage N s.graph name s.tags).1.toBool),
    { s with tags := (lookupImage N s.graph name s.tags).2 })

/-- `poolAdd`, and the wait for the channel of one that is there. -/
def poolAdd (id : Str) : Proc LoadState LoadErr Unit := fun s =>
  if id ∈ s.pool then (.error (.waiting id), s) else (.ok (), { s with pool := id :: s.pool })

/-- `poolRemove`. -/
def poolRemove (id : Str) : Proc LoadState LoadErr Unit := fun s =>
  (.ok (), { s with pool := s.pool.filter fun i => i ≠ id })

/-- `Graph.Register`. -/
def registerImage (img : Image) : Proc LoadState LoadErr Unit := fun s =>
  if hid : validID img.id = true then
    if hnew : s.graph.exists_ img.id = false then
      if w.accepts s.graph img then (.ok (), { s with graph := s.graph.insert img hid hnew })
      else (.error (.register img.id), s)
    else (.ok (), s)
  else (.error (.invalidID img.id), s)

/-- The part of `recursiveLoad` in which the image is in the pool: its parent is loaded if the graph does not
have it, and the image is registered. -/
def loadOntoParent (img : Image) (loadParent : Proc LoadState LoadErr Unit) : Proc LoadState LoadErr Unit := do
  let needed ← read fun s => decide (img.parent ≠ []) && !s.graph.exists_ img.parent
  if needed then loadParent else pure ()
  registerImage w img

end

/-- `recursiveLoad`, for a number of rounds. -/
def recursiveLoad (N : Naming) (w : Unpacked) : Nat → Str → Proc LoadState LoadErr Unit
  | 0, _ => fail .endless
  | n + 1, address => do
    let there ← found N address
    if there then pure ()
    else do
      let json ← readFile w (w.jsonPath address)
      openFile w (w.layerPath address)
      match json with
      | none => fail .unmarshal
      | some img =>
        if validID img.id then do
          poolAdd img.id
          (loadOntoParent w img (recursiveLoad N w n img.parent)).andFinally (poolRemove img.id)
        else fail (.invalidID img.id)

/-- `SetLoad` for an entry of the file `repositories`. -/
def setTag (N : Naming) (w : Unpacked) (r : Ref) : Proc LoadState LoadErr Unit := fun s =>
  ((setLoad N s.graph w.writes r.repo r.tag r.id true s.tags).1.mapError .tag,
    { s with tags := (setLoad N s.graph w.writes r.repo r.tag r.id true s.tags).2 })

/-- `Load`, once the archive is unpacked. -/
def load (N : Naming) (w : Unpacked) : Proc LoadState LoadErr Unit := do
  w.dirs.forM (recursiveLoad N w (w.disk.images.length + 1))
  match w.repositories with
  | .missing => pure ()
  | .unreadable => fail .openRepositories
  | .undecodable => fail .decode
  | .entries refs => refs.forM (setTag N w)


/-! ## The way from a directory -/

section Way

variable (N : Naming) (w : Unpacked) (g : Graph) (t : Repositories)

/-- What there is at an address. -/
inductive Probe where
  /-- The graph or a repository has it. -/
  | there
  /-- No image can be read, which is found out after some files were opened. -/
  | failed (e : LoadErr) (opened : List Str)
  /-- An image with a valid id can be read. -/
  | image (img : Image)

/-- The two files of an image. -/
def filesOf (address : Str) : List Str := [w.jsonPath address, w.layerPath address]

/-- The files at an address, read without their effects. -/
def probe (address : Str) : Probe :=
  match t.lookupImage N g address with
  | .ok _ => .there
  | .error _ =>
    match w.disk.node (w.jsonPath address) with
    | none => .failed (.readFile (w.jsonPath address)) [w.jsonPath address]
    | some .directory => .failed (.readFile (w.jsonPath address)) [w.jsonPath address]
    | some (.file json) =>
      match w.disk.node (w.layerPath address) with
      | none => .failed (.openFile (w.layerPath address)) (filesOf w address)
      | some _ =>
        match json with
        | none => .failed .unmarshal (filesOf w address)
        | some img => if validID img.id then .image img else .failed (.invalidID img.id) (filesOf w address)

/-- The files that are opened at an address. -/
def opens (address : Str) : List Str :=
  match probe N w g t address with
  | .there => []
  | .failed _ paths => paths
  | .image _ => filesOf w address

/-- The parent that has to be loaded before the image. -/
def needs (img : Image) : Option Str :=
  if decide (img.parent ≠ []) && !g.exists_ img.parent then some img.parent else none

/-- The way from an address over the parents that are needed, with the ids that were met. An id is not met
twice. -/
inductive Reaches : List Str → Str → List Str → Str → Prop
  | here (met : List Str) (a : Str) : Reaches met a met a
  | step {met met' : List Str} {a b c : Str} {img : Image} (himg : probe N w g t a = .image img)
      (hnew : img.id ∉ met) (hneeds : needs g img = some b) (hway : Reaches (img.id :: met) b met' c) :
      Reaches met a met' c

/-- The way from the address comes to an image whose id was met before. -/
def ComesBack (a : Str) : Prop :=
  ∃ met b img, Reaches N w g t [] a met b ∧ probe N w g t b = .image img ∧ img.id ∈ met

/-- The way from the address comes over the parent of its image to one that is read from the files. -/
def Visits (a b : Str) : Prop :=
  ∃ img p met, probe N w g t a = .image img ∧ needs g img = some p ∧ Reaches N w g t [img.id] p met b ∧
    probe N w g t b ≠ .there

end Way

/-- The path stays in the directory of the archive. -/
def Unpacked.Inside (w : Unpacked) (address : Str) : Prop := Below w.repoDir (join [w.repoDir, address])

/-- The property holds for each directory in the state in which it has its turn. -/
def EachTurn (N : Naming) (w : Unpacked) (P : LoadState → Str → Prop) : LoadState → List Str → Prop
  | _, [] => True
  | s, d :: ds => P s d ∧
    ∀ s', recursiveLoad N w (w.disk.images.length + 1) d s = (.ok (), s') → EachTurn N w P s' ds

/-- The errors that stand for a load that does not end. -/
inductive LoadErr.Hangs : LoadErr → Prop
  | waiting (id : Str) : Hangs (.waiting id)
  | endless : Hangs .endless

/-- The load comes to an end, with or without an error. -/
def Returns (r : Except LoadErr Unit) : Prop := ∀ e, r = .error e → ¬ e.Hangs

/-! ## One round -/

section Round

variable {N : Naming} {w : Unpacked} {n : Nat} {a : Str} {s s' : LoadState} {img : Image}
  {loadParent : Proc LoadState LoadErr Unit}

section

variable (path : Str) (paths : List Str) (s : LoadState)

/-- The state after a lookup, and after some files were opened. -/
def LoadState.looked (paths : List Str) : LoadState :=
  { s with tags := s.tags.fresh, opened := s.opened ++ paths }

/-- The state in which an image is in the pool. -/
def LoadState.entered (paths : List Str) (id : Str) : LoadState :=
  ⟨s.graph, s.tags.fresh, id :: s.pool, s.opened ++ paths⟩

theorem found_run (name : Str) (s : LoadState) : found N name s =
    (.ok (s.tags.observed.lookupImage N s.graph name).toBool, s.looked []) := by
  unfold found LoadState.looked
  rw [append_nil]
  cases h : s.tags.observed.lookupImage N s.graph name with
  | error e => rw [lookupImage_run h]; rfl
  | ok img => rw [lookupImage_run h]; rfl

theorem openPath_run : openPath path (s.looked paths) = (.ok (), s.looked (paths ++ [path])) := by
  unfold openPath LoadState.looked
  dsimp only
  rw [append_assoc]

theorem readFile_run : readFile w path (s.looked paths) =
    (match w.disk.node path with
      | some (.file img) => .ok img
      | some .directory => .error (.readFile path)
      | none => .error (.readFile path), s.looked (paths ++ [path])) := by
  unfold readFile
  rw [bind_run_ok (openPath_run path paths s)]
  rcases w.disk.node path with _ | ⟨img⟩ | _ <;> rfl

theorem openFile_run : openFile w path (s.looked paths) =
    (match w.disk.node path with
      | some _ => .ok ()
      | none => .error (.openFile path), s.looked (paths ++ [path])) := by
  unfold openFile
  rw [bind_run_ok (openPath_run path paths s)]
  cases w.disk.node path <;> rfl

end

theorem poolAdd_run (id : Str) (paths : List Str) (s : LoadState) : poolAdd id (s.looked paths) =
    if id ∈ s.pool then (.error (.waiting id), s.looked paths) else (.ok (), s.entered paths id) := rfl

/-- What a round does, by what there is at the address. -/
theorem recursiveLoad_succ (n : Nat) (a : Str) (s : LoadState) : recursiveLoad N w (n + 1) a s =
    match probe N w s.graph s.tags.observed a with
    | .there => (.ok (), s.looked [])
    | .failed e paths => (.error e, s.looked paths)
    | .image img =>
      if img.id ∈ s.pool then (.error (.waiting img.id), s.looked (filesOf w a))
      else (loadOntoParent w img (recursiveLoad N w n img.parent)).andFinally (poolRemove img.id)
        (s.entered (filesOf w a) img.id) := by
  rw [recursiveLoad, bind_run_ok (found_run a s)]
  unfold probe
  cases s.tags.observed.lookupImage N s.graph a with
  | ok img => rfl
  | error e =>
    show (readFile w (w.jsonPath a) >>= _) (s.looked []) = _
    have hread := @readFile_run w (w.jsonPath a) [] s
    rcases hnode : w.disk.node (w.jsonPath a) with _ | json | _
    · rw [hnode] at hread
      rw [bind_run_error hread]
      rfl
    · rw [hnode] at hread
      rw [bind_run_ok hread, nil_append]
      have hopen := @openFile_run w (w.layerPath a) [w.jsonPath a] s
      cases hlayer : w.disk.node (w.layerPath a) with
      | none =>
        rw [hlayer] at hopen
        rw [bind_run_error hopen]
        rfl
      | some layer =>
        rw [hlayer] at hopen
        rw [bind_run_ok hopen]
        cases json with
        | none => rfl
        | some img =>
          dsimp only
          split
          · have hpool : poolAdd img.id (s.looked ([w.jsonPath a] ++ [w.layerPath a])) = _ :=
              poolAdd_run img.id (filesOf w a) s
            split at hpool
            next hmem =>
              rw [bind_run_error hpool]
              exact (if_pos hmem).symm
            next hnew =>
              rw [bind_run_ok hpool]
              exact (if_neg hnew).symm
          · rfl
    · rw [hnode] at hread
      rw [bind_run_error hread]
      rfl

theorem Returns.error {e : LoadErr} (h : ¬ e.Hangs) : Returns (.error e) := fun _ heq => Except.error.inj heq ▸ h

/-- A registration changes the graph at most. -/
theorem registerImage_run (w : Unpacked) (img : Image) (s : LoadState) :
    ∃ r g, registerImage w img s = (r, { s with graph := g }) ∧ Returns r := by
  unfold registerImage
  split
  · split
    · split
      · exact ⟨_, _, rfl, nofun⟩
      · exact ⟨_, _, rfl, .error nofun⟩
    · exact ⟨_, _, rfl, nofun⟩
  · exact ⟨_, _, rfl, .error nofun⟩

theorem loadOntoParent_none (h : needs s.graph img = none) :
    loadOntoParent w img loadParent s = registerImage w img s := by
  unfold needs at h
  split at h
  · cases h
  next hnot =>
    rw [loadOntoParent, read_bind_run, if_neg hnot]

variable {s₀ : LoadState} {b : Str}

theorem needs_eq_some {g : Graph} (h : needs g img = some b) : b = img.parent ∧ img.parent ≠ [] ∧
    (decide (img.parent ≠ []) && !g.exists_ img.parent) := by
  unfold needs at h
  split at h
  next hneeds =>
    cases h
    exact ⟨rfl, by simp_all, hneeds⟩
  · cases h

/-- An image that needs its parent is registered once that is loaded. -/
theorem loadOntoParent_ok {u : Unit} (h : needs s.graph img = some b) (hparent : loadParent s = (.ok u, s₀)) :
    loadOntoParent w img loadParent s = registerImage w img s₀ := by
  rw [loadOntoParent, read_bind_run, if_pos (needs_eq_some h).2.2]
  exact bind_run_ok hparent

/-- An image that needs its parent hangs if the load of the parent does. -/
theorem loadOntoParent_some {r₀ : Except LoadErr Unit} (h : needs s.graph img = some b) (hparent : loadParent s = (r₀, s₀)) :
    ∃ r g, loadOntoParent w img loadParent s = (r, { s₀ with graph := g }) ∧
      ∀ e, e.Hangs → (r = .error e ↔ r₀ = .error e) := by
  cases r₀ with
  | error e₀ =>
    rw [loadOntoParent, read_bind_run, if_pos (needs_eq_some h).2.2, bind_run_error hparent]
    exact ⟨_, s₀.graph, rfl, fun _ _ => .rfl⟩
  | ok u =>
    obtain ⟨r, g, hrun, hreturns⟩ := registerImage_run w img s₀
    rw [loadOntoParent_ok h hparent]
    exact ⟨r, g, hrun, fun e he => ⟨fun heq => absurd he (hreturns e heq), nofun⟩⟩

/-- A program that runs while an id is in the pool. -/
theorem pooled_run {m : Proc LoadState LoadErr Unit} {r : Except LoadErr Unit} {id : Str} {pool : List Str}
    (hm : m s = (r, s')) (hs' : s'.pool = id :: pool) (hnew : id ∉ pool) :
    m.andFinally (poolRemove id) s = (r, { s' with pool := pool }) := by
  have hpool : (id :: pool).filter (fun i => i ≠ id) = pool := by
    rw [filter_cons_of_neg (by simp), filter_eq_self]
    intro i hi
    rw [decide_eq_true_iff]
    intro heq
    exact hnew (heq ▸ hi)
  unfold andFinally poolRemove
  rw [hm]
  dsimp only
  rw [hs', hpool]

end Round

/-! ## The rounds from an address -/

section Rounds

variable {N : Naming} {w : Unpacked} {g : Graph} {t : Repositories} {met met' : List Str} {a b c : Str}
  {img : Image}

/-- The way ends where no image can be read, and at an image that was met or needs no parent. -/
theorem reaches_stuck (h : ∀ img, probe N w g t a = .image img → img.id ∈ met ∨ needs g img = none) :
    Reaches N w g t met a met' c ↔ met' = met ∧ c = a := by
  constructor
  · intro hway
    cases hway with
    | here => exact ⟨rfl, rfl⟩
    | step himg hnew hneeds _ =>
      rw [(h _ himg).resolve_left hnew] at hneeds
      cases hneeds
  · rintro ⟨rfl, rfl⟩
    exact .here _ _

/-- The way from an image: it ends there, or goes on with the parent. -/
theorem reaches_image (h : probe N w g t a = .image img) :
    Reaches N w g t met a met' c ↔ (met' = met ∧ c = a) ∨
      (img.id ∉ met ∧ ∃ b, needs g img = some b ∧ Reaches N w g t (img.id :: met) b met' c) := by
  constructor
  · intro hway
    cases hway with
    | here => exact .inl ⟨rfl, rfl⟩
    | step himg hnew hneeds hrest =>
      cases himg.symm.trans h
      exact .inr ⟨hnew, _, hneeds, hrest⟩
  · rintro (⟨rfl, rfl⟩ | ⟨hnew, b, hneeds, hrest⟩)
    · exact .here _ _
    · exact .step h hnew hneeds hrest

/-- How many ids can still be met. -/
def room (w : Unpacked) (met : List Str) : Nat := ((w.disk.images.map Image.id).toFinset \ met.toFinset).card

theorem mem_images (h : probe N w g t a = .image img) : img ∈ w.disk.images := by
  unfold probe at h
  split at h
  · cases h
  split at h
  · cases h
  · cases h
  next json hnode =>
    split at h
    · cases h
    split at h
    · cases h
    next img' =>
      split at h
      · cases h
        exact w.disk.described _ _ hnode
      · cases h

/-- An address that fails does not hang, and has at most its own files opened. -/
theorem probe_failed {e : LoadErr} {paths : List Str} (h : probe N w g t a = .failed e paths) :
    ¬ e.Hangs ∧ (paths = [w.jsonPath a] ∨ paths = filesOf w a) := by
  unfold probe at h
  split at h
  · cases h
  split at h
  · cases h
    exact ⟨nofun, .inl rfl⟩
  · cases h
    exact ⟨nofun, .inl rfl⟩
  split at h
  · cases h
    exact ⟨nofun, .inr rfl⟩
  split at h
  · cases h
    exact ⟨nofun, .inr rfl⟩
  split at h
  · cases h
  · cases h
    exact ⟨nofun, .inr rfl⟩

/-- An image that is met leaves less room. -/
theorem room_cons (himg : img ∈ w.disk.images) (hnew : img.id ∉ met) : room w (img.id :: met) < room w met := by
  apply Finset.card_lt_card
  rw [toFinset_cons]
  refine Finset.ssubset_iff_of_subset ?_ |>.mpr ⟨img.id, ?_, ?_⟩
  · exact Finset.sdiff_subset_sdiff (Finset.Subset.refl _) (Finset.subset_insert _ _)
  · rw [Finset.mem_sdiff, mem_toFinset, mem_toFinset]
    exact ⟨mem_map_of_mem himg, hnew⟩
  · simp

theorem room_nil (w : Unpacked) : room w [] < w.disk.images.length + 1 := by
  have hle := toFinset_card_le (w.disk.images.map Image.id)
  rw [length_map] at hle
  simpa [room, Nat.lt_succ_iff] using hle

/-- What a load from an address does in a state. -/
structure Outcome (N : Naming) (w : Unpacked) (s : LoadState) (a : Str) (out : Except LoadErr Unit × LoadState) :
    Prop where
  ends : out.1 ≠ .error .endless
  waits : (∃ id, out.1 = .error (.waiting id)) ↔
    ∃ met b img, Reaches N w s.graph s.tags.observed s.pool a met b ∧
      probe N w s.graph s.tags.observed b = .image img ∧ img.id ∈ met
  opened : ∀ p, p ∈ out.2.opened ↔ p ∈ s.opened ∨
    ∃ met b, Reaches N w s.graph s.tags.observed s.pool a met b ∧ p ∈ opens N w s.graph s.tags.observed b
  pool : out.2.pool = s.pool
  tags : out.2.tags.observed = s.tags.observed

variable {s : LoadState} {g : Graph} {r : Except LoadErr Unit}

/-- The outcome where the way ends at the address. -/
theorem outcome_stuck
    (h : ∀ img, probe N w s.graph s.tags.observed a = .image img → img.id ∈ s.pool ∨ needs s.graph img = none)
    (hends : r ≠ .error .endless) (hwaits : (∃ id, r = .error (.waiting id)) ↔
      ∃ img, probe N w s.graph s.tags.observed a = .image img ∧ img.id ∈ s.pool) :
    Outcome N w s a (r, { s.looked (opens N w s.graph s.tags.observed a) with graph := g }) := by
  refine ⟨hends, ?_, ?_, rfl, observed_fresh _⟩
  · simp [reaches_stuck h, hwaits]
  · simp [reaches_stuck h, LoadState.looked]

/-- The outcome of an image from that of its parent. -/
theorem Outcome.onParent {s₀ : LoadState} {r₀ : Except LoadErr Unit}
    (hprobe : probe N w s.graph s.tags.observed a = .image img) (hneeds : needs s.graph img = some b)
    (hnew : img.id ∉ s.pool)
    (hout : Outcome N w (s.entered (filesOf w a) img.id) b (r₀, s₀))
    (hr : ∀ e, e.Hangs → (r = .error e ↔ r₀ = .error e)) :
    Outcome N w s a (r, { s₀ with graph := g, pool := s.pool }) := by
  obtain ⟨hends, hwaits, hopened, -, htags⟩ := hout
  simp only [LoadState.entered, observed_fresh] at hwaits hopened htags
  have hway : ∀ {met' c}, Reaches N w s.graph s.tags.observed s.pool a met' c ↔ (met' = s.pool ∧ c = a) ∨
      Reaches N w s.graph s.tags.observed (img.id :: s.pool) b met' c := by
    intro met' c
    rw [reaches_image hprobe, hneeds]
    simp [hnew]
  refine ⟨fun h => hends ((hr _ .endless).mp h), ?_, fun p => ?_, rfl, htags⟩
  · have hsame : (∃ id, r = .error (.waiting id)) ↔ ∃ id, r₀ = .error (.waiting id) :=
      exists_congr fun id => hr _ (.waiting id)
    rw [hsame, hwaits]
    constructor
    · rintro ⟨met, c, img', hreach, himg, hmet⟩
      exact ⟨met, c, img', hway.mpr (.inr hreach), himg, hmet⟩
    rintro ⟨met, c, img', hreach, himg, hmet⟩
    rcases hway.mp hreach with ⟨rfl, rfl⟩ | hreach
    · cases himg.symm.trans hprobe
      exact absurd hmet hnew
    · exact ⟨met, c, img', hreach, himg, hmet⟩
  · have hhere : opens N w s.graph s.tags.observed a = filesOf w a := by
      rw [opens, hprobe]
    rw [hopened, mem_append, or_assoc]
    refine or_congr_right ⟨?_, ?_⟩
    · rintro (hp | ⟨met, c, hreach, hp⟩)
      · exact ⟨s.pool, a, .here _ _, hhere ▸ hp⟩
      · exact ⟨met, c, hway.mpr (.inr hreach), hp⟩
    · rintro ⟨met, c, hreach, hp⟩
      rcases hway.mp hreach with ⟨rfl, rfl⟩ | hreach
      · exact .inl (hhere ▸ hp)
      · exact .inr ⟨met, c, hreach, hp⟩

/-- With a round for each id that can be met, a load from an address ends; it waits if the way comes back to an
id, and opens the files along the way. -/
theorem recursiveLoad_outcome {n : Nat} (hn : room w s.pool < n) :
    Outcome N w s a (recursiveLoad N w n a s) := by
  induction n generalizing a s with
  | zero => omega
  | succ n ih =>
    rw [recursiveLoad_succ]
    cases hprobe : probe N w s.graph s.tags.observed a with
    | there =>
      have hout := @outcome_stuck N w a s s.graph (.ok ()) (by simp [hprobe]) nofun (by simp [hprobe])
      rwa [opens, hprobe] at hout
    | failed e paths =>
      have hr := Returns.error (probe_failed hprobe).1
      have hout := @outcome_stuck N w a s s.graph (.error e) (by simp [hprobe]) (fun h => hr _ h .endless)
        (iff_of_false (fun ⟨id, h⟩ => hr _ h (.waiting id)) (by simp [hprobe]))
      rwa [opens, hprobe] at hout
    | image img =>
      dsimp only
      split
      next hmem =>
        -- the id is in the pool, and the way ends here
        have hout := @outcome_stuck N w a s s.graph (.error (.waiting img.id)) (by simp [hprobe, hmem]) nofun
          (iff_of_true ⟨_, rfl⟩ ⟨img, hprobe, hmem⟩)
        rwa [opens, hprobe] at hout
      next hnew =>
        cases hneeds : needs s.graph img with
        | none =>
          obtain ⟨r, g, hrun, hr⟩ := registerImage_run w img (s.entered (filesOf w a) img.id)
          have hload := (@loadOntoParent_none w (s.entered (filesOf w a) img.id) img
            (recursiveLoad N w n img.parent) hneeds).trans hrun
          rw [pooled_run hload rfl hnew]
          have hout := @outcome_stuck N w a s g r (by simp [hprobe, hneeds]) (fun h => hr _ h .endless)
            (iff_of_false (fun ⟨id, h⟩ => hr _ h (.waiting id)) (by simp [hprobe, hnew]))
          rwa [opens, hprobe] at hout
        | some b =>
          obtain rfl := (needs_eq_some hneeds).1
          have hroom := room_cons (mem_images hprobe) hnew
          have hout : Outcome N w (s.entered (filesOf w a) img.id) img.parent
              (recursiveLoad N w n img.parent (s.entered (filesOf w a) img.id)) := by
            apply ih
            show room w (img.id :: s.pool) < n
            omega
          rcases hrec : recursiveLoad N w n img.parent (s.entered (filesOf w a) img.id) with ⟨r₀, s₀⟩
          rw [hrec] at hout
          obtain ⟨r, g, hrun, hr⟩ := @loadOntoParent_some w (s.entered (filesOf w a) img.id) img _ _ _ _ hneeds hrec
          rw [pooled_run hrun hout.pool hnew]
          have hhere := hout.onParent (g := g) hprobe hneeds hnew hr
          exact hhere

end Rounds

/-! ## The turns of the directories -/

section Turns

variable {N : Naming} {w : Unpacked} {s : LoadState} {ds : List Str}

theorem eachTurn_congr {P Q : LoadState → Str → Prop} (h : ∀ s, ∀ d ∈ ds, P s d ↔ Q s d) :
    EachTurn N w P s ds ↔ EachTurn N w Q s ds := by
  induction ds generalizing s with
  | nil => exact .rfl
  | cons d ds ih =>
    unfold EachTurn
    rw [h s d mem_cons_self]
    refine and_congr_right fun _ => forall₂_congr fun s' _ => ?_
    exact ih fun s d hd => h s d (mem_cons_of_mem _ hd)

theorem turn_outcome (d : Str) (hpool : s.pool = []) :
    Outcome N w s d (recursiveLoad N w (w.disk.images.length + 1) d s) :=
  recursiveLoad_outcome (hpool ▸ room_nil w)

/-- The turns come to an end if no directory leads back to an id. -/
theorem turns_return_iff (hpool : s.pool = []) :
    Returns (ds.forM (recursiveLoad N w (w.disk.images.length + 1)) s).1 ↔
      EachTurn N w (fun s d => ¬ ComesBack N w s.graph s.tags.observed d) s ds := by
  induction ds generalizing s with
  | nil => exact ⟨fun _ => trivial, fun _ => nofun⟩
  | cons d ds ih =>
    have hout := @turn_outcome N w s d hpool
    have hback : (∃ id, (recursiveLoad N w (w.disk.images.length + 1) d s).1 = .error (.waiting id)) ↔
        ComesBack N w s.graph s.tags.observed d := by
      rw [hout.waits, hpool]
      rfl
    unfold EachTurn
    rcases hrun : recursiveLoad N w (w.disk.images.length + 1) d s with ⟨e | u, s'⟩
    · rw [forM_cons_error hrun, ← hback, hrun]
      have hends := hout.ends
      rw [hrun] at hends
      constructor
      · intro hreturns
        refine ⟨?_, nofun⟩
        rintro ⟨id, hid⟩
        exact hreturns _ hid (.waiting id)
      · rintro ⟨hnot, -⟩ e' he' hhangs
        cases hhangs with
        | waiting id => exact hnot ⟨id, he'⟩
        | endless => exact hends he'
    · have hpool' := hout.pool
      rw [hrun] at hpool'
      rw [forM_cons_ok hrun, ih (hpool'.trans hpool), ← hback, hrun]
      constructor
      · intro hrest
        refine ⟨nofun, fun s'' h => ?_⟩
        cases h
        exact hrest
      · exact fun h => h.2 s' rfl

/-- What holds of the paths that were opened. -/
theorem turns_opened_iff (hpool : s.pool = []) (Q : Str → Prop) :
    (∀ p ∈ (ds.forM (recursiveLoad N w (w.disk.images.length + 1)) s).2.opened, Q p) ↔
      (∀ p ∈ s.opened, Q p) ∧ EachTurn N w (fun s d => ∀ met b,
        Reaches N w s.graph s.tags.observed [] d met b → ∀ p ∈ opens N w s.graph s.tags.observed b, Q p) s ds := by
  induction ds generalizing s with
  | nil => exact ⟨fun h => ⟨h, trivial⟩, And.left⟩
  | cons d ds ih =>
    have hout := @turn_outcome N w s d hpool
    have hopened : (∀ p ∈ (recursiveLoad N w (w.disk.images.length + 1) d s).2.opened, Q p) ↔
        (∀ p ∈ s.opened, Q p) ∧ ∀ met b, Reaches N w s.graph s.tags.observed [] d met b →
          ∀ p ∈ opens N w s.graph s.tags.observed b, Q p := by
      constructor
      · intro h
        refine ⟨fun p hp => h p ((hout.opened p).mpr (.inl hp)), fun met b hway p hp => ?_⟩
        exact h p ((hout.opened p).mpr (.inr ⟨met, b, hpool ▸ hway, hp⟩))
      · rintro ⟨hold, hnew⟩ p hp
        rcases (hout.opened p).mp hp with hp | ⟨met, b, hway, hp⟩
        · exact hold p hp
        · exact hnew met b (hpool ▸ hway) p hp
    unfold EachTurn
    rcases hrun : recursiveLoad N w (w.disk.images.length + 1) d s with ⟨e | u, s'⟩
    · rw [hrun] at hopened
      rw [forM_cons_error hrun, hopened]
      refine and_congr_right fun _ => ⟨fun h => ⟨h, nofun⟩, And.left⟩
    · have hpool' := hout.pool
      rw [hrun] at hpool' hopened
      rw [forM_cons_ok hrun, ih (hpool'.trans hpool), hopened, and_assoc]
      refine and_congr_right fun _ => and_congr_right fun _ => ⟨fun h s'' heq => ?_, fun h => h s' rfl⟩
      cases heq
      exact h

theorem setTag_run {r : Ref} {tags : TagStore} {out : Except TagErr Unit}
    (h : setLoad N s.graph w.writes r.repo r.tag r.id true s.tags = (out, tags)) :
    setTag N w r s = (out.mapError .tag, { s with tags := tags }) := by
  unfold setTag
  rw [h]

/-- Setting the tags returns and opens nothing. -/
theorem setTags_run (refs : List Ref) (s : LoadState) :
    Returns (refs.forM (setTag N w) s).1 ∧ (refs.forM (setTag N w) s).2.opened = s.opened := by
  induction refs generalizing s with
  | nil => exact ⟨nofun, rfl⟩
  | cons r refs ih =>
    rcases hset : setLoad N s.graph w.writes r.repo r.tag r.id true s.tags with ⟨e | u, tags⟩
    · rw [forM_cons_error (setTag_run hset)]
      exact ⟨.error nofun, rfl⟩
    · rw [forM_cons_ok (setTag_run hset)]
      exact ih _

/-- A load hangs if its turns do, and opens what they open. -/
theorem load_turns (N : Naming) (w : Unpacked) (s : LoadState) :
    (Returns (load N w s).1 ↔ Returns (w.dirs.forM (recursiveLoad N w (w.disk.images.length + 1)) s).1) ∧
      (load N w s).2.opened = (w.dirs.forM (recursiveLoad N w (w.disk.images.length + 1)) s).2.opened := by
  unfold load
  rcases hturns : w.dirs.forM (recursiveLoad N w (w.disk.images.length + 1)) s with ⟨e | u, s'⟩
  · rw [bind_run_error hturns]
    exact ⟨.rfl, rfl⟩
  rw [bind_run_ok hturns]
  have hdone : Returns (.ok u : Except LoadErr Unit) := nofun
  cases w.repositories with
  | missing => exact ⟨⟨fun _ => hdone, fun _ => nofun⟩, rfl⟩
  | unreadable => exact ⟨⟨fun _ => hdone, fun _ => .error nofun⟩, rfl⟩
  | undecodable => exact ⟨⟨fun _ => hdone, fun _ => .error nofun⟩, rfl⟩
  | entries refs =>
    obtain ⟨hreturns, hopened⟩ := @setTags_run N w refs s'
    exact ⟨⟨fun _ => hdone, fun _ => hreturns⟩, hopened⟩

end Turns

/-! ## Paths in the archive -/

theorem exists_repoDir (w : Unpacked) : ∃ ns, AllProper ns ∧ w.tmpImageDir = absPath ns ∧
    w.repoDir = absPath (ns ++ ["repo".toList]) ∧ AllProper (ns ++ ["repo".toList]) := by
  obtain ⟨ns, hns, htmp⟩ := exists_absPath w.absolute w.cleaned
  have hrepo : Proper "repo".toList := by decide
  refine ⟨ns, hns, htmp, ?_, proper_snoc hns hrepo⟩
  rw [Unpacked.repoDir, htmp, join_absPath hns, comps_elem hrepo.elem.1 hrepo.elem.2,
    walk_proper ns (by simpa using hrepo)]

/-- A file at an address is in the archive if the address is. -/
theorem below_file_iff (w : Unpacked) (address : Str) {name : Str} (hname : Proper name)
    (hne : name ≠ "repo".toList) :
    Below w.repoDir (join [w.tmpImageDir, "repo".toList, address, name]) ↔ w.Inside address := by
  obtain ⟨ns, hns, htmp, hdir, hR⟩ := exists_repoDir w
  have hrepo : Proper "repo".toList := by decide
  have hwalk : ∀ n ∈ walk (ns ++ ["repo".toList]) (comps address), Proper n := walk_names hR fun _ => mem_comps
  have hnonempty : ns ++ ["repo".toList] ≠ [] := by simp
  have hfile : join [w.tmpImageDir, "repo".toList, address, name] =
      absPath (walk (ns ++ ["repo".toList]) (comps address) ++ [name]) := by
    have hcomps : ["repo".toList, address, name].flatMap comps = ["repo".toList] ++ comps address ++ [name] := by
      simp only [flatMap_cons, flatMap_nil, append_nil]
      rw [comps_elem hrepo.elem.1 hrepo.elem.2, comps_elem hname.elem.1 hname.elem.2, append_assoc]
    rw [htmp, join_absPath_cons hns, hcomps, walk_append, walk_append,
      walk_proper ns (by simpa using hrepo), walk_proper _ (by simpa using hname)]
  rw [Unpacked.Inside, hdir, hfile, join_absPath hR,
    below_iff_prefix hnonempty hR (proper_snoc hwalk hname),
    below_iff_prefix hnonempty hR hwalk, prefix_concat_iff]
  refine or_iff_right fun heq => hne ?_
  have hlast := congrArg getLast? heq
  simpa using hlast.symm

/-- A directory of the archive is in the archive. -/
theorem inside_of_proper (w : Unpacked) {d : Str} (h : Proper d) : w.Inside d := by
  obtain ⟨ns, -, -, hdir, hR⟩ := exists_repoDir w
  rw [Unpacked.Inside, hdir, join_absPath hR, comps_elem h.elem.1 h.elem.2,
    walk_proper _ (by simpa using h), below_iff_prefix (by simp) hR (proper_snoc hR h)]
  exact prefix_append _ _

section Opened

variable {N : Naming} {w : Unpacked} {g : Graph} {t : Repositories} {b : Str}

/-- The files that are opened at an address are in the archive if the address is. -/
theorem opens_below_iff : (∀ p ∈ opens N w g t b, Below w.repoDir p) ↔ (probe N w g t b ≠ .there → w.Inside b) := by
  have hjson : Below w.repoDir (w.jsonPath b) ↔ w.Inside b := below_file_iff w b (by decide) (by decide)
  have hlayer : Below w.repoDir (w.layerPath b) ↔ w.Inside b := below_file_iff w b (by decide) (by decide)
  have hfiles : (∀ p ∈ filesOf w b, Below w.repoDir p) ↔ w.Inside b := by
    simp [filesOf, hjson, hlayer]
  have hone : (∀ p ∈ [w.jsonPath b], Below w.repoDir p) ↔ w.Inside b := by
    simp [hjson]
  unfold opens
  cases hprobe : probe N w g t b with
  | there => simp
  | failed e paths =>
    rcases (probe_failed hprobe).2 with rfl | rfl
    · simpa using hone
    · simpa using hfiles
  | image img => simpa using hfiles

end Opened

/-- **When a load returns**: no directory may, when it has its turn, lead over its parents to an image whose id
was met on the way. -/
theorem load_returns_iff (N : Naming) (w : Unpacked) (g : Graph) (tags : TagStore) :
    Returns (load N w (.alone g tags)).1 ↔
      EachTurn N w (fun s d => ¬ ComesBack N w s.graph s.tags.observed d) (.alone g tags) w.dirs :=
  (load_turns N w _).1.trans (turns_return_iff rfl)

/-- **When a load reads only the archive**: the parents that are read on the way from each directory, when it has
its turn, have to be paths that stay in the archive. -/
theorem load_below_iff (N : Naming) (w : Unpacked) (g : Graph) (tags : TagStore) :
    (∀ p ∈ (load N w (.alone g tags)).2.opened, Below w.repoDir p) ↔
      EachTurn N w (fun s d => ∀ b, Visits N w s.graph s.tags.observed d b → w.Inside b) (.alone g tags) w.dirs := by
  rw [(load_turns N w _).2, turns_opened_iff rfl]
  have hnone : ∀ p ∈ (LoadState.alone g tags).opened, Below w.repoDir p := nofun
  rw [and_iff_right hnone]
  apply eachTurn_congr
  intro s d hd
  constructor
  · rintro hall b ⟨img, p, met, himg, hneeds, hway, hprobe⟩
    exact opens_below_iff.mp (hall met b (.step himg not_mem_nil hneeds hway)) hprobe
  intro hall met b hway
  refine opens_below_iff.mpr fun hprobe => ?_
  cases hway with
  | here => exact inside_of_proper w (w.proper d hd)
  | step himg _ hneeds hrest => exact hall b ⟨_, _, met, himg, hneeds, hrest, hprobe⟩

/-! ### An archive with one directory -/

/-- The id of the image. -/
def oneID : Str := replicate 64 'a'

/-- An archive with an image that has the given parent. -/
def oneDirectory (parent : Str) : Unpacked where
  tmpImageDir := "/tmp/docker-import-1".toList
  absolute := by decide
  cleaned := by decide
  disk := {
    node := fun path =>
      if path = "/tmp/docker-import-1/repo/".toList ++ oneID ++ "/json".toList then
        some (.file (some ⟨oneID, parent⟩))
      else if path = "/tmp/docker-import-1/repo/".toList ++ oneID ++ "/layer.tar".toList then some (.file none)
      else none
    images := [⟨oneID, parent⟩]
    described := by
      intro path img h
      split at h
      · cases h
        exact mem_singleton_self _
      · split at h <;> cases h }
  dirs := [oneID]
  proper := by decide
  repositories := .missing
  accepts := fun _ _ => true
  writes := true

/-- A tag store and a graph with nothing in them. -/
def blank : LoadState := .alone ⟨[], .nil, nofun⟩ ⟨⟨[], .nil⟩, ⟨[], .nil⟩⟩

/-- An image that is its own parent waits for itself. -/
theorem load_ownParent : ¬ Returns (load registryNaming (oneDirectory oneID) blank).1 := by
  have hwaits : (load registryNaming (oneDirectory oneID) blank).1 = .error (.waiting oneID) := by
    decide +kernel
  exact fun h => h _ hwaits (.waiting oneID)

/-- A parent that climbs out of the archive is read. -/
theorem load_climbs :
    ∃ p ∈ (load registryNaming (oneDirectory "../../etc".toList) blank).2.opened,
      ¬ Below (oneDirectory "../../etc".toList).repoDir p :=
  ⟨"/tmp/etc/json".toList, by decide +kernel, by decide +kernel⟩

end DockerEngine.Images.Load
