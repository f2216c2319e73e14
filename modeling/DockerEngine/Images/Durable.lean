import DockerEngine.Images.Names
import DockerEngine.Lib.Crash
import DockerEngine.Lib.Trace

/-!
# The image graph on disk

`graph.Graph` keeps a directory for each image and leaves the layers to a storage driver. Both survive a
crash; the index of ids is in memory and is built again by `NewGraph`. `Register` applies the layer, prepares
the directory under `_tmp` and renames it to its place, `Delete` renames it away first.

The model has the files of an image that are read again (`layersize`, `json`, `parent`). The directory under
`_tmp` is a value that a call builds: no other call looks at it and neither does `restore`. A call has at most
one failing step, and a crash can stop it after any of its writes. A rename is one write, and so are `Create`
and `Remove` of the driver; an archive is applied entry by entry and `RemoveAll` goes file by file.

`register` takes any failure of `Get` for an image that is not there, and begins by removing what there is of
the image. If it was the reading of a registered image that failed, that image is at stake: when the driver
cannot create the layer a second time, it is lost (`lost_unread`). This is the only way: in a run where no
reading of a registered image fails in `Register`, an image that can be got is complete, and stays until it is
deleted (`registered_durable`).
-/

namespace DockerEngine.Images.Durable

open Filepath Crash List AList Trace Proc

/-! ## What is on the disk -/

/-- The fields of an image configuration that the graph reads. The parent's digest counts only if it is
valid, and is then used as its hexadecimal part. -/
structure Config where
  id : Str
  parent : Str
  parentID : Option Str
  deriving DecidableEq, Repr

/-- The files of an image directory. The bytes of a configuration that cannot be decoded are `none`. -/
structure ImageDir where
  layersize : Option Nat
  json : Option (Option Config)
  parent : Option Str
  deriving DecidableEq, Repr

/-- The names of these files. -/
inductive FileName where
  | layersize
  | json
  | parent
  deriving DecidableEq, Repr

/-- The directory without one of its files. -/
def ImageDir.without (dir : ImageDir) : FileName → ImageDir
  | .layersize => { dir with layersize := none }
  | .json => { dir with json := none }
  | .parent => { dir with parent := none }

/-- A layer of the driver: the layer it was created on, and the entries applied to it. -/
structure Layer (δ : Type) where
  parent : Str
  diff : List δ
  deriving DecidableEq, Repr

/-- The directories of the images and the layers of the driver. -/
structure Disk (δ : Type) where
  dirs : AList fun _ : Str => ImageDir
  layers : AList fun _ : Str => Layer δ

variable {δ : Type}

namespace Disk

section

variable (id : Str)

def setDir (dir : ImageDir) (d : Disk δ) : Disk δ := { d with dirs := d.dirs.insert id dir }

def eraseDir (d : Disk δ) : Disk δ := { d with dirs := d.dirs.erase id }

/-- Unlinking a file of an image directory. -/
def unlink (f : FileName) (d : Disk δ) : Disk δ :=
  match d.dirs.lookup id with
  | none => d
  | some dir => d.setDir id (dir.without f)

def setLayer (l : Layer δ) (d : Disk δ) : Disk δ := { d with layers := d.layers.insert id l }

def eraseLayer (d : Disk δ) : Disk δ := { d with layers := d.layers.erase id }

/-- One entry of an archive put into a layer. -/
def extend (entry : δ) (d : Disk δ) : Disk δ :=
  match d.layers.lookup id with
  | none => d
  | some l => d.setLayer id { l with diff := l.diff ++ [entry] }

end

end Disk

/-! ## Calls -/

/-- The archive of a layer: its entries, and whether the stream breaks after them. -/
structure LayerData (δ : Type) where
  entries : List δ
  broken : Bool
  deriving DecidableEq, Repr

/-- What `Register` is given: an `image.ImageDescriptor`, whose `MarshalConfig` may fail, and the archive of
the layer, if there is one. -/
structure Descriptor (δ : Type) where
  id : Str
  parent : Str
  marshalConfig : Option (Option Config)
  layerData : Option (LayerData δ)
  deriving DecidableEq, Repr

/-- A step of a call that can fail. -/
inductive Step where
  /-- Reading the directory of an image, in `Get`. -/
  | readImage
  /-- `RemoveAll` of an image directory, at a file or at the directory itself. -/
  | removeRoot (f : Option FileName)
  /-- `Remove` of the driver. -/
  | removeLayer
  /-- `Remove` of the driver once more, after an error. -/
  | removeAgain
  | mktemp
  /-- `Create` of the driver. -/
  | create
  | tarData
  /-- `ApplyDiff` of the driver, after so many entries. -/
  | apply (n : Nat)
  | saveSize
  | writeJSON
  | writeParent
  | rename
  deriving DecidableEq, Repr

/-- The errors of `Get`, `Register` and `Delete`. -/
inductive Err where
  | emptyPrefix
  | ambiguousPrefix
  | noSuchID (s : Str)
  | undecodable
  | invalidID (id : Str)
  | wrongID (id found : Str)
  | noSize (id : Str)
  | layerExists (id : Str)
  | noLayer (id : Str)
  | marshal
  | broken
  /-- A step of the system failed. -/
  | failed (s : Step)
  deriving DecidableEq, Repr

/-- What is given: the order in which the file system lists the files of a directory, the size of an archive
as `ApplyDiff` counts it, and the driver's `DiffSize`. -/
structure Env (δ : Type) where
  order : List FileName
  weigh : List δ → Nat
  diffSize : Disk δ → Str → Str → Option Nat

/-- The graph: the ids of its index are in memory. -/
abbrev Store (δ : Type) : Type := Machine (List Str) (Disk δ)

/-- A program of the graph. -/
abbrev Act (δ α : Type) : Type := Prog (List Str) (Disk δ) Err α

section

variable (env : Env δ) (fault : Option Step) (im : Descriptor δ) (id : Str)

/-- A step that fails if it is the one that is to fail. -/
def attempt (s : Step) : Act δ Unit :=
  if fault = some s then fail (.failed s) else pure ()

section

variable (parent : Str) (index : List Str) (name : Str) (d : Disk δ)

/-- `TruncIndex.Get`. -/
def indexGet : Except Err Str :=
  if name = [] then .error .emptyPrefix
  else
    match index.filter fun id => name.isPrefixOf id with
    | [] => .error (.noSuchID name)
    | [id] => .ok id
    | _ => .error .ambiguousPrefix

/-- `TruncIndex.Add`, whose error is not looked at. -/
def indexAdd (id : Str) : List Str :=
  if ' ' ∈ id ∨ id = [] ∨ id ∈ index then index else index ++ [id]

/-- An image as `Get` returns it. -/
structure Image where
  id : Str
  parent : Str
  size : Nat
  deriving DecidableEq, Repr

/-- The id that `loadImage` takes from the configuration. -/
def Config.idAt (c : Config) (id : Str) : Str := if c.id = [] then id else c.id

/-- The parent that `loadImage` takes from the configuration and the `parent` file. -/
def ImageDir.parentOf (dir : ImageDir) (c : Config) : Str :=
  match dir.parent with
  | some (p :: ps) => p :: ps
  | _ => if c.parent = [] then c.parentID.getD [] else c.parent

/-- What `loadImage` makes of the files, without the size, and the comparison of ids that follows it in
`Get`. -/
def decode : Option ImageDir → Except Err (ImageDir × Config)
  | none => .error (.noSuchID id)
  | some dir =>
    match dir.json with
    | none => .error (.noSuchID id)
    | some none => .error .undecodable
    | some (some c) =>
      if validID (c.idAt id) = false then .error (.invalidID (c.idAt id))
      else if c.idAt id ≠ id then .error (.wrongID id (c.idAt id))
      else .ok (dir, c)

/-- `loadImage`. -/
def loadImage : Act δ (ImageDir × Config) := do
  attempt fault .readImage
  match ← look fun _ d => decode id (d.dirs.lookup id) with
  | .error e => fail e
  | .ok p => pure p

/-- `Graph.Get`. A size that is not known is taken from the driver and saved. -/
def get : Act δ Image := do
  match ← look fun index _ => indexGet index name with
  | .error e => fail e
  | .ok id =>
    let (dir, c) ← loadImage fault id
    match dir.layersize with
    | some size => pure ⟨id, dir.parentOf c, size⟩
    | none =>
      match ← look fun _ d => env.diffSize d id (dir.parentOf c) with
      | none => fail (.noSize id)
      | some size =>
        attempt fault .saveSize
        write (Disk.setDir id { dir with layersize := some size })
        pure ⟨id, dir.parentOf c, size⟩

/-- `os.RemoveAll` of an image directory. A file that cannot be removed does not keep it from going on with
the others; the directory stays then. -/
def removeRoot : Act δ Unit := do
  env.order.forM fun f =>
    if fault = some (.removeRoot (some f)) then pure () else write (Disk.unlink id f)
  match fault with
  | some (.removeRoot f) => fail (.failed (.removeRoot f))
  | _ => write (Disk.eraseDir id)

/-- `driver.Remove`. -/
def removeLayer (s : Step) (id : Str) : Act δ Unit := do
  attempt fault s
  match ← look fun _ d => d.layers.lookup id with
  | none => fail (.noLayer id)
  | some _ => write (Disk.eraseLayer id)

/-- `driver.Create`, as in the drivers that refuse a layer that exists. -/
def create : Act δ Unit := do
  attempt fault .create
  match ← look fun _ d => d.layers.lookup id with
  | some _ => fail (.layerExists id)
  | none =>
    match ← look fun _ d => d.layers.lookup parent with
    | none =>
      if parent = [] then write (Disk.setLayer id ⟨parent, []⟩) else fail (.noLayer parent)
    | some _ => write (Disk.setLayer id ⟨parent, []⟩)

/-- The entries of an archive from the `n`th on. -/
def applyEntries (fault : Option Step) (id : Str) : Nat → List δ → Act δ Unit
  | n, [] => attempt fault (.apply n)
  | n, e :: es => do
    attempt fault (.apply n)
    write (Disk.extend id e)
    applyEntries fault id (n + 1) es

/-- `disassembleAndApplyTarLayer`. -/
def applyLayer (l : LayerData δ) : Act δ Nat := do
  attempt fault .tarData
  applyEntries fault id 0 l.entries
  if l.broken then fail .broken else pure (env.weigh l.entries)

/-- The writing of the files in `storeImage`, into a directory under `_tmp`. -/
def storeFiles (config : Option Config) (size : Nat) : Act δ ImageDir := do
  attempt fault .saveSize
  attempt fault .writeJSON
  match config with
  | none => fail .undecodable
  | some img =>
    match img.parentID with
    | none => pure ⟨some size, some config, none⟩
    | some hex =>
      if parent = hex then pure ⟨some size, some config, none⟩
      else
        attempt fault .writeParent
        pure ⟨some size, some config, some parent⟩

/-- The layer in `storeImage`, if an archive is given. -/
def storeLayer : Option (LayerData δ) → Act δ Nat
  | none => pure 0
  | some l => applyLayer env fault id l

/-- `storeImage`. It returns the directory it has filled. -/
def storeImage (config : Option Config) (layerData : Option (LayerData δ)) : Act δ ImageDir := do
  let size ← storeLayer env fault id layerData
  storeFiles fault parent config size

/-- `register` from where it has found that the image is not there. -/
def registerNew : Act δ Unit := do
  removeRoot env fault im.id
  (removeLayer fault .removeLayer im.id).ignoreError
  attempt fault .mktemp
  create fault im.id im.parent
  match im.marshalConfig with
  | none => fail .marshal
  | some config =>
    let root ← storeImage env fault im.id im.parent config im.layerData
    attempt fault .rename
    write (Disk.setDir im.id root)
    remember fun index => indexAdd index im.id

/-- `Graph.Exists`: any failure of `Get` counts as no. -/
def exists_ : Act δ Bool := fun s =>
  match get env fault id s with
  | (.ok _, s') => (.ok true, s')
  | (.error _, s') => (.ok false, s')

/-- `Graph.Register`. -/
def register : Act δ Unit :=
  if validID im.id = false then fail (.invalidID im.id)
  else do
    if ← exists_ env fault im.id then pure ()
    else (registerNew env fault im).onError (removeLayer fault .removeAgain im.id)

/-- `Graph.Delete` for an id of the index. The directory is renamed away, or stays where it is if that
fails. -/
def deleteID : Act δ Unit := do
  let found ← look fun _ d => (d.dirs.lookup id).isSome
  remember fun index => index.erase id
  if found = true ∧ fault ≠ some .mktemp ∧ fault ≠ some .rename then
    write (Disk.eraseDir id)
    (removeLayer fault .removeLayer id).ignoreError
    match fault with
    | some (.removeRoot f) => fail (.failed (.removeRoot f))
    | _ => pure ()
  else
    (removeLayer fault .removeLayer id).ignoreError
    removeRoot env fault id

/-- `Graph.Delete`. -/
def delete : Act δ Unit := do
  match ← look fun index _ => indexGet index name with
  | .error e => fail e
  | .ok id => deleteID env fault id

/-- `NewGraph`: the index has the ids of the directories for which the driver has a layer. -/
def newGraph : Store δ :=
  ⟨(d.dirs.keys.filter fun id => (d.layers.lookup id).isSome).foldl indexAdd [], d, []⟩

/-! ## Complete images -/

/-- The directory holds a configuration under which `Get` finds the image `id`. -/
def ImageDir.Loads (dir : ImageDir) (id : Str) : Prop :=
  ∃ c, dir.json = some (some c) ∧ validID (c.idAt id) = true ∧ c.idAt id = id

/-- All entries of the layer. -/
def Descriptor.diff : List δ :=
  match im.layerData with
  | none => []
  | some l => l.entries

/-- The size of the layer as `storeImage` saves it. -/
def Descriptor.layersize : Option Nat :=
  match im.layerData with
  | none => some 0
  | some l => some (env.weigh l.entries)

/-- The directory that a completed `storeImage` has filled. -/
def Descriptor.dir (config : Config) : ImageDir where
  layersize := im.layersize env
  json := some (some config)
  parent := config.parentID.bind fun hex => if im.parent = hex then none else some im.parent

/-- The image is complete: some descriptor has its id, the directory is the one that `storeImage` fills for
it, and the layer has all entries of its archive, which was read to its end. -/
def Complete (id : Str) : Prop :=
  ∃ (im : Descriptor δ) (config : Config), im.id = id ∧ im.marshalConfig = some (some config) ∧
    (∀ l, im.layerData = some l → l.broken = false) ∧
    d.dirs.lookup id = some (im.dir env config) ∧ d.layers.lookup id = some ⟨im.parent, im.diff⟩

/-! ## What a call does to one image -/

/-- The disks agree about all other images. -/
def Elsewhere (d₀ d : Disk δ) : Prop :=
  ∀ x, x ≠ id → d.dirs.lookup x = d₀.dirs.lookup x ∧ d.layers.lookup x = d₀.layers.lookup x

/-- What a crash may leave of an image: if the directory can be loaded and there is a layer, the image is
complete. -/
def Whole : Prop := ∀ dir, d.dirs.lookup id = some dir → dir.Loads id → d.layers.lookup id = none ∨ Complete env d id

/-- The image is not there: it has no directory that can be loaded, or neither a layer nor a place in the
index. -/
def Clear (id : Str) (d : Disk δ) : Prop :=
  ∀ dir, d.dirs.lookup id = some dir → dir.Loads id → d.layers.lookup id = none ∧ id ∉ index

/-- There is no directory for the image. -/
def NoDir : Prop := d.dirs.lookup id = none

end

/-- The disks that a call about the image `id` leaves behind when it is stopped. -/
def Stopped (d₀ d : Disk δ) : Prop := Elsewhere id d₀ d ∧ Whole env id d

end

variable {dir : ImageDir}

section Disks

variable {env : Env δ} {id : Str} {d₀ d : Disk δ} {index : List Str}

theorem Elsewhere.refl (id : Str) (d : Disk δ) : Elsewhere id d d := fun _ _ => ⟨rfl, rfl⟩

section

variable (h : Elsewhere id d₀ d)
include h

theorem Elsewhere.setDir (dir : ImageDir) : Elsewhere id d₀ (d.setDir id dir) :=
  fun x hx => ⟨(lookup_insert_ne hx).trans (h x hx).1, (h x hx).2⟩

theorem Elsewhere.eraseDir : Elsewhere id d₀ (d.eraseDir id) :=
  fun x hx => ⟨(lookup_erase_ne hx).trans (h x hx).1, (h x hx).2⟩

theorem Elsewhere.setLayer (l : Layer δ) : Elsewhere id d₀ (d.setLayer id l) :=
  fun x hx => ⟨(h x hx).1, (lookup_insert_ne hx).trans (h x hx).2⟩

theorem Elsewhere.eraseLayer : Elsewhere id d₀ (d.eraseLayer id) :=
  fun x hx => ⟨(h x hx).1, (lookup_erase_ne hx).trans (h x hx).2⟩

theorem Elsewhere.unlink (f : FileName) : Elsewhere id d₀ (d.unlink id f) := by
  unfold Disk.unlink
  split
  · exact h
  · exact h.setDir _

end

@[simp] theorem dirs_setDir (dir : ImageDir) : (d.setDir id dir).dirs.lookup id = some dir := lookup_insert _

@[simp] theorem layers_setDir (dir : ImageDir) : (d.setDir id dir).layers = d.layers := rfl

@[simp] theorem dirs_setLayer (l : Layer δ) : (d.setLayer id l).dirs = d.dirs := rfl

@[simp] theorem layers_setLayer (l : Layer δ) : (d.setLayer id l).layers.lookup id = some l := lookup_insert _

@[simp] theorem layers_eraseLayer : (d.eraseLayer id).layers.lookup id = none := lookup_erase _ _

theorem Clear.whole (h : Clear index id d) : Whole env id d := fun dir hdir hl => .inl (h dir hdir hl).1

theorem NoDir.clear (h : NoDir id d) : Clear index id d := by
  intro dir hdir
  rw [NoDir] at h
  rw [h] at hdir
  cases hdir

theorem NoDir.whole (h : NoDir id d) : Whole env id d := Clear.whole (h.clear : Clear [] id d)

section

variable (h : Complete env d id)
include h

theorem Complete.layer : ∃ l, d.layers.lookup id = some l := by
  obtain ⟨im, c, -, -, -, -, hlayer⟩ := h
  exact ⟨_, hlayer⟩

theorem Complete.size (hdir : d.dirs.lookup id = some dir) :
    ∃ size, dir.layersize = some size := by
  obtain ⟨im, c, -, -, -, hdir', -⟩ := h
  rw [hdir'] at hdir
  cases hdir
  show ∃ size, im.layersize env = some size
  unfold Descriptor.layersize
  split
  · exact ⟨_, rfl⟩
  · exact ⟨_, rfl⟩

theorem Complete.whole : Whole env id d := fun _ _ _ => .inr h

end

theorem noDir_eraseDir : NoDir id (d.eraseDir id) := lookup_erase _ _

theorem whole_eraseLayer : Whole env id (d.eraseLayer id) := fun _ _ _ => .inl layers_eraseLayer

theorem Clear.eraseLayer (h : Clear index id d) : Clear index id (d.eraseLayer id) :=
  fun dir hdir hl => ⟨layers_eraseLayer, (h dir hdir hl).2⟩

theorem ImageDir.Loads.of_without {f : FileName} (h : (dir.without f).Loads id) : dir.Loads id := by
  obtain ⟨c, hc, hid⟩ := h
  cases f with
  | json => cases hc
  | layersize => exact ⟨c, hc, hid⟩
  | parent => exact ⟨c, hc, hid⟩

/-- Removing a file does not make a directory loadable. -/
theorem Clear.unlink (h : Clear index id d) (f : FileName) : Clear index id (d.unlink id f) := by
  unfold Disk.unlink
  split
  · exact h
  next dir hdir =>
    intro dir' hdir' hl
    rw [dirs_setDir] at hdir'
    cases hdir'
    exact h dir hdir hl.of_without

end Disks

/-! ## The steps of a call -/

/-- The memory is `index`, and the disk satisfies `A`. -/
def With (index : List Str) (A : Disk δ → Prop) : List Str → Disk δ → Prop := fun v d => v = index ∧ A d

section Steps

variable {env : Env δ} {fault : Option Step} {id : Str} {d₀ : Disk δ} {index : List Str}
  {A B : Disk δ → Prop}

variable {C : Disk δ → Prop} {s : Step} {parent : Str} {P E : List Str → Disk δ → Prop}

theorem attempt_safe (h : ∀ v d, P v d → E v d) : Safe C P (attempt fault s) (fun _ => P) E := by
  unfold attempt
  split
  · exact .fail _ h
  · exact .pure _ fun _ _ h => h

/-- A write that keeps to the image and to what a crash may leave of it. -/
theorem write_safe {f : Disk δ → Disk δ}
    (hf : ∀ d, Elsewhere id d₀ d → Elsewhere id d₀ (f d)) (hB : ∀ d, A d → B (f d))
    (hW : ∀ d, B d → Whole env id d) :
    Safe (Stopped env id d₀) (With index A) (write f : Act δ Unit) (fun _ => With index B) E :=
  Safe.write fun _ d hP hC => ⟨⟨hf d hC.1, hW _ (hB d hP.2)⟩, hP.1, hB d hP.2⟩

theorem removeLayer_safe (hA : ∀ d, A d → A (d.eraseLayer id)) :
    Safe (Stopped env id d₀) (With index A) (removeLayer fault s id) (fun _ => With index A) (With index A) := by
  refine .bind (attempt_safe fun _ _ h => h) fun _ => .look_bind fun found => ?_
  cases found with
  | none => exact .fail _ fun _ _ h => h.1
  | some l =>
    refine .write fun v d hP hC => ?_
    exact ⟨⟨hC.1.eraseLayer, whole_eraseLayer⟩, hP.1.1, hA d hP.1.2⟩

/-- If `Remove` of the driver does not fail by itself, the layer is gone after it. -/
theorem removeLayer_clears (hs : fault ≠ some s) (hid : id ∉ index) :
    Safe (Stopped env id d₀) (With index fun _ => True) (removeLayer fault s id)
      (fun _ => With index (Clear index id)) (With index (Clear index id)) := by
  rw [removeLayer, attempt, if_neg hs]
  refine .bind (Q := fun _ => With index fun _ => True) (.pure () fun _ _ h => h) fun _ =>
    Safe.look_bind fun found => ?_
  cases found with
  | none => exact .fail _ fun v d h => ⟨h.1.1, fun _ _ _ => ⟨h.2, hid⟩⟩
  | some l =>
    refine .write fun v d hP hC => ?_
    exact ⟨⟨hC.1.eraseLayer, whole_eraseLayer⟩, hP.1.1, fun _ _ _ => ⟨layers_eraseLayer, hid⟩⟩

theorem removeRoot_safe :
    Safe (Stopped env id d₀) (With index (Clear index id)) (removeRoot env fault id)
      (fun _ => With index (NoDir id)) (With index (Clear index id)) := by
  refine .bind (Q := fun _ => With index (Clear index id)) (.forM _ fun f _ => ?_) fun _ => ?_
  · split
    · exact .pure _ fun _ _ h => h
    · exact write_safe (fun _ h => h.unlink f) (fun _ h => h.unlink f) fun _ h => h.whole
  · split
    · exact .fail _ fun _ _ h => h
    · exact write_safe (fun _ h => h.eraseDir) (fun _ _ => noDir_eraseDir) fun _ h => h.whole

/-- There is no directory for the image, and its layer has these entries. -/
def Filled (id parent : Str) (es : List δ) (d : Disk δ) : Prop := NoDir id d ∧ d.layers.lookup id = some ⟨parent, es⟩

theorem create_safe (parent : Str) :
    Safe (Stopped env id d₀) (With index (NoDir id)) (create fault id parent)
      (fun _ => With index (Filled id parent [])) (With index (NoDir id)) := by
  have hmake : Safe (Stopped env id d₀) (With index (NoDir id))
      (write (Disk.setLayer id ⟨parent, []⟩) : Act δ Unit) (fun _ => With index (Filled id parent []))
      (With index (NoDir id)) :=
    write_safe (fun _ h => h.setLayer _) (fun _ h => ⟨h, layers_setLayer _⟩) fun _ h => h.1.whole
  refine .bind (attempt_safe fun _ _ h => h) fun _ => .look_bind fun found => ?_
  cases found with
  | some l => exact .fail _ fun _ _ h => h.1
  | none =>
    refine .look_bind fun below => ?_
    cases below with
    | some l => exact hmake.pre fun _ _ h => h.1.1
    | none =>
      dsimp only
      split
      · exact hmake.pre fun _ _ h => h.1.1
      · exact .fail _ fun _ _ h => h.1.1

theorem applyEntries_safe (es : List δ) (n : Nat) (done : List δ) :
    Safe (Stopped env id d₀) (With index (Filled id parent done)) (applyEntries fault id n es)
      (fun _ => With index (Filled id parent (done ++ es))) (With index (NoDir id)) := by
  induction es generalizing n done with
  | nil =>
    rw [append_nil]
    exact attempt_safe fun _ _ h => ⟨h.1, h.2.1⟩
  | cons e es ih =>
    have hstep := ih (n + 1) (done ++ [e])
    rw [append_assoc, singleton_append] at hstep
    refine .bind (attempt_safe fun _ _ h => ⟨h.1, h.2.1⟩) fun _ => .bind ?_ fun _ => hstep
    refine .write fun v d hP hC => ?_
    have hext : d.extend id e = d.setLayer id ⟨parent, done ++ [e]⟩ := by rw [Disk.extend, hP.2.2]
    have hfilled : Filled id parent (done ++ [e]) (d.extend id e) := by
      rw [hext]
      exact ⟨hP.2.1, layers_setLayer _⟩
    exact ⟨⟨hext ▸ hC.1.setLayer _, hfilled.1.whole⟩, hP.1, hfilled⟩

theorem applyLayer_safe (l : LayerData δ) :
    Safe (Stopped env id d₀) (With index (Filled id parent [])) (applyLayer env fault id l)
      (fun size => With index fun d =>
        Filled id parent l.entries d ∧ l.broken = false ∧ size = env.weigh l.entries)
      (With index (NoDir id)) := by
  refine .bind (attempt_safe fun _ _ h => ⟨h.1, h.2.1⟩) fun _ =>
    Safe.bind (applyEntries_safe l.entries 0 []) fun _ => ?_
  split
  · exact .fail _ fun _ _ h => ⟨h.1, h.2.1⟩
  next hb => exact .pure _ fun _ _ h => ⟨h.1, h.2, Bool.eq_false_iff.mpr hb, rfl⟩

theorem storeFiles_safe (parent : Str) (config : Option Config) (size : Nat) :
    Safe C P (storeFiles fault parent config size)
      (fun root v d => P v d ∧ ∃ c, config = some c ∧ root.layersize = some size ∧
        root.json = some (some c) ∧ root.parent = c.parentID.bind fun hex =>
          if parent = hex then none else some parent) P := by
  refine .bind (attempt_safe fun _ _ h => h) fun _ =>
    Safe.bind (attempt_safe fun _ _ h => h) fun _ => ?_
  cases config with
  | none => exact .fail _ fun _ _ h => h
  | some c =>
    dsimp only
    split
    next hnone => exact Safe.pure _ fun _ _ h => ⟨h, c, rfl, rfl, rfl, by simp [hnone]⟩
    next hex hsome =>
    split
    next heq => exact Safe.pure _ fun _ _ h => ⟨h, c, rfl, rfl, rfl, by simp [hsome, heq]⟩
    next hne =>
      refine .bind (attempt_safe fun _ _ h => h) fun _ => ?_
      exact Safe.pure _ fun _ _ h => ⟨h, c, rfl, rfl, rfl, by simp [hsome, hne]⟩

/-- `storeImage` that completes has filled the directory and the layer. -/
theorem storeImage_safe (im : Descriptor δ) (config : Option Config) :
    Safe (Stopped env im.id d₀) (With index (Filled im.id im.parent []))
      (storeImage env fault im.id im.parent config im.layerData)
      (fun root => With index fun d => Filled im.id im.parent im.diff d ∧
        (∀ l, im.layerData = some l → l.broken = false) ∧
        ∃ c, config = some c ∧ root = im.dir env c)
      (With index (NoDir im.id)) := by
  refine .bind (Q := fun size => With index fun d => Filled im.id im.parent im.diff d ∧
    (∀ l, im.layerData = some l → l.broken = false) ∧ some size = im.layersize env) ?_ fun size => ?_
  · cases hl : im.layerData with
    | none => exact Safe.pure _ fun _ _ h => ⟨h.1, by simpa [Descriptor.diff, hl] using h.2, nofun,
        by simp [Descriptor.layersize, hl]⟩
    | some l =>
      refine (applyLayer_safe l).mono (fun _ _ h => h) (fun size v d h => ?_) fun _ _ h => h
      obtain ⟨hv, hfilled, hb, hsize⟩ := h
      refine ⟨hv, by simpa [Descriptor.diff, hl] using hfilled, fun l' hl' => ?_, ?_⟩
      · cases hl'
        exact hb
      · simp [Descriptor.layersize, hl, hsize]
  · refine (storeFiles_safe im.parent config size).mono (fun _ _ h => h) (fun root v d h => ?_)
      fun _ _ h => ⟨h.1, h.2.1.1⟩
    obtain ⟨⟨hv, hfilled, hb, hsize⟩, c, hc, h₁, h₂, h₃⟩ := h
    refine ⟨hv, hfilled, hb, c, hc, ?_⟩
    rw [hsize] at h₁
    cases root
    simp_all [Descriptor.dir]

/-- A registration of an image that is not there either fails and leaves none, or has made it. -/
theorem registerNew_safe (im : Descriptor δ) :
    Safe (Stopped env im.id d₀) (With index (Clear index im.id))
      ((registerNew env fault im).onError (removeLayer fault .removeAgain im.id))
      (fun _ => With (indexAdd index im.id) fun d => Complete env d im.id)
      (With index (Clear index im.id)) := by
  have herr : ∀ (v : List Str) (d : Disk δ), With index (NoDir im.id) v d →
      With index (Clear index im.id) v d := fun _ _ h => ⟨h.1, NoDir.clear h.2⟩
  refine .onError ?_ (removeLayer_safe fun _ h => h.eraseLayer)
  refine .bind removeRoot_safe fun _ => ?_
  refine .mono ?_ (fun _ _ h => h) (fun _ _ _ h => h) herr
  refine .bind (.ignoreError (removeLayer_safe fun _ h => h)) fun _ =>
    Safe.bind (attempt_safe fun _ _ h => h) fun _ => .bind (create_safe im.parent) fun _ => ?_
  cases hm : im.marshalConfig with
  | none => exact .fail _ fun _ _ h => ⟨h.1, h.2.1⟩
  | some config =>
    refine .bind (storeImage_safe im config) fun root =>
      Safe.bind (attempt_safe fun _ _ h => ⟨h.1, h.2.1.1⟩) fun _ =>
      Safe.bind (Q := fun _ => With index fun d => Complete env d im.id) ?_ fun _ => ?_
    · refine .write fun v d hP hC => ?_
      obtain ⟨hv, hfilled, hb, c, hc, hroot⟩ := hP
      have hcomplete : Complete env (d.setDir im.id root) im.id :=
        ⟨im, c, rfl, by rw [hm, hc], hb, by rw [dirs_setDir, hroot], hfilled.2⟩
      exact ⟨⟨hC.1.setDir _, hcomplete.whole⟩, hv, hcomplete⟩
    · exact Safe.remember fun v d h => ⟨by rw [h.1], h.2⟩

/-- A deletion takes the directory or the layer away, even if one of its steps fails. -/
theorem deleteID_safe (hn : index.Nodup) :
    Safe (Stopped env id d₀) (With index fun _ => True) (deleteID env fault id)
      (fun _ => With (index.erase id) (Clear (index.erase id) id))
      (With (index.erase id) (Clear (index.erase id) id)) := by
  have hgone : ∀ (v : List Str) (d : Disk δ), With (index.erase id) (NoDir id) v d →
      With (index.erase id) (Clear (index.erase id) id) v d := fun _ _ h => ⟨h.1, NoDir.clear h.2⟩
  have hroot : Safe (Stopped env id d₀) (With (index.erase id) (Clear (index.erase id) id)) (removeRoot env fault id)
      (fun _ => With (index.erase id) (Clear (index.erase id) id))
      (With (index.erase id) (Clear (index.erase id) id)) :=
    removeRoot_safe.mono (fun _ _ h => h) (fun _ => hgone) fun _ _ h => h
  refine .look_bind fun found => .bind
    (Q := fun _ => With (index.erase id) fun d => (d.dirs.lookup id).isSome = found)
    (Safe.remember fun v d h => ⟨by rw [h.1.1], h.2⟩) fun _ => ?_
  split
  · refine .bind (write_safe (fun _ h => h.eraseDir) (fun _ _ => noDir_eraseDir) fun _ h => h.whole) fun _ =>
      Safe.bind (.ignoreError (removeLayer_safe fun _ h => h)) fun _ => ?_
    split
    · exact .fail _ hgone
    · exact .pure _ hgone
  next hstay =>
    cases found with
    | false =>
      -- There is no directory to begin with.
      refine .bind (Q := fun _ => With (index.erase id) (NoDir id))
        (.ignoreError ((removeLayer_safe fun _ h => h).pre fun _ d h => ?_)) fun _ =>
        hroot.pre hgone
      exact ⟨h.1, Option.isSome_eq_false_iff.mp h.2 |> Option.isNone_iff_eq_none.mp⟩
    | true =>
      -- The step that failed is not the removal of the layer.
      have hfault : fault ≠ some .removeLayer := by
        rintro rfl
        exact hstay ⟨rfl, by decide, by decide⟩
      exact .bind (.ignoreError ((removeLayer_clears hfault hn.not_mem_erase).pre fun _ _ h => ⟨h.1, trivial⟩))
        fun _ => hroot

end Steps

/-! ## Sound graphs -/

/-- The graph between two calls: every image that is in the index is complete if its directory can be loaded,
and one that is not in the index has no layer in that case. -/
structure Sound (env : Env δ) (s : Store δ) : Prop where
  ids : ∀ id ∈ s.mem, validID id = true
  nodup : s.mem.Nodup
  dirs : ∀ id dir, s.disk.dirs.lookup id = some dir → validID id = true
  images : ∀ id dir, s.disk.dirs.lookup id = some dir → dir.Loads id →
    s.disk.layers.lookup id = none ∧ id ∉ s.mem ∨ Complete env s.disk id ∧ id ∈ s.mem

/-- A disk from which `NewGraph` makes a sound graph. -/
structure Restorable (env : Env δ) (d : Disk δ) : Prop where
  dirs : ∀ id dir, d.dirs.lookup id = some dir → validID id = true
  images : ∀ id, Whole env id d

/-- `Get` succeeds for the image. -/
def Visible (env : Env δ) (s : Store δ) (id : Str) : Prop := ∃ img, (get env none id s).1 = .ok img ∧ img.id = id

instance (env : Env δ) (s : Store δ) (id : Str) : Decidable (Visible env s id) :=
  match h : (get env none id s).1 with
  | .error _ => .isFalse fun ⟨_, himg, _⟩ => by rw [h] at himg; cases himg
  | .ok img =>
    if hid : img.id = id then .isTrue ⟨img, h, hid⟩
    else .isFalse fun ⟨_, himg, hid'⟩ => by rw [h] at himg; cases himg; exact hid hid'

section Index

variable {index : List Str} {id name : Str}

theorem indexGet_mem (h : indexGet index name = .ok id) : id ∈ index ∧ name <+: id := by
  unfold indexGet at h
  split at h
  · cases h
  split at h
  · cases h
  next x hx =>
    cases h
    have hmem : id ∈ index.filter fun id => name.isPrefixOf id := by rw [hx]; simp
    obtain ⟨hin, hpre⟩ := mem_filter.mp hmem
    exact ⟨hin, isPrefixOf_iff_prefix.mp hpre⟩
  · cases h

theorem indexGet_self (hids : ∀ x ∈ index, validID x) (hn : index.Nodup) (h : id ∈ index) :
    indexGet index id = .ok id := by
  have hfilter : (index.filter id.isPrefixOf) = [id] := by
    have hone : (index.filter id.isPrefixOf) = index.filter fun x => x == id := by
      refine filter_congr fun x hx => ?_
      rw [Bool.eq_iff_iff, isPrefixOf_iff_prefix, beq_iff_eq]
      refine ⟨fun hp => (validID_begins (hids id h) (hids x hx) hp).symm, ?_⟩
      rintro rfl
      exact prefix_rfl
    rw [hone, filter_beq, count_eq_one_of_mem hn h]
    rfl
  rw [indexGet, if_neg (validID_ne_nil (hids id h)), hfilter]

theorem indexAdd_of_valid (h : validID id) : indexAdd index id = if id ∈ index then index else index ++ [id] := by
  have h₁ : ' ' ∉ id := validID_not_mem h (by decide)
  simp [indexAdd, h₁, validID_ne_nil h]

theorem mem_indexAdd {x : Str} (h : validID id) : x ∈ indexAdd index id ↔ x ∈ index ∨ x = id := by
  rw [indexAdd_of_valid h]
  split
  next hin =>
    refine ⟨.inl, ?_⟩
    rintro (hx | rfl)
    · exact hx
    · exact hin
  · simp

theorem nodup_indexAdd (h : validID id) (hn : index.Nodup) : (indexAdd index id).Nodup := by
  rw [indexAdd_of_valid h]
  split
  · exact hn
  next hin =>
    refine hn.append (nodup_singleton id) ?_
    simpa using hin

theorem foldl_indexAdd (l : List Str) (hl : ∀ x ∈ l, validID x) (hn : index.Nodup) :
    (∀ x, x ∈ l.foldl indexAdd index ↔ x ∈ index ∨ x ∈ l) ∧ (l.foldl indexAdd index).Nodup := by
  induction l generalizing index with
  | nil => simpa using hn
  | cons y l ih =>
    have hy := hl y (by simp)
    obtain ⟨hmem, hnd⟩ := ih (forall_mem_cons.mp hl).2 (nodup_indexAdd hy hn)
    refine ⟨fun x => ?_, hnd⟩
    rw [foldl_cons, hmem, mem_indexAdd hy, mem_cons, or_assoc]

end Index

section Graph

variable {env : Env δ} {s : Store δ} {id name : Str} {d : Disk δ}

section

variable (h : Restorable env d)
include h

theorem Restorable.valid :
    ∀ x ∈ d.dirs.keys.filter fun id => (d.layers.lookup id).isSome, validID x := by
  intro x hx
  obtain ⟨dir, hdir⟩ := Option.isSome_iff_exists.mp
    (AList.lookup_isSome.mpr (mem_keys.mpr (mem_of_mem_filter hx)))
  exact h.dirs x dir hdir

theorem mem_newGraph :
    id ∈ (newGraph d).mem ↔ (∃ dir, d.dirs.lookup id = some dir) ∧ ∃ l, d.layers.lookup id = some l := by
  rw [newGraph, (foldl_indexAdd _ h.valid nodup_nil).1, mem_filter, ← AList.mem_keys,
    ← lookup_isSome, Option.isSome_iff_exists, Option.isSome_iff_exists]
  simp

/-- `NewGraph` makes a sound graph from what a crash leaves behind. -/
theorem newGraph_sound : Sound env (newGraph d) where
  ids x hx := by
    obtain ⟨⟨dir, hdir⟩, -⟩ := (mem_newGraph h).mp hx
    exact h.dirs x dir hdir
  nodup := (foldl_indexAdd _ h.valid nodup_nil).2
  dirs := h.dirs
  images x dir hdir hl := by
    rcases h.images x dir hdir hl with hnone | hc
    · refine .inl ⟨hnone, fun hin => ?_⟩
      obtain ⟨-, l, hsome⟩ := (mem_newGraph h).mp hin
      rw [hnone] at hsome
      cases hsome
    · exact .inr ⟨hc, (mem_newGraph h).mpr ⟨⟨dir, hdir⟩, hc.layer⟩⟩

end

theorem Sound.fresh (hs : Sound env s) : Sound env ⟨s.mem, s.disk, []⟩ := ⟨hs.ids, hs.nodup, hs.dirs, hs.images⟩

theorem Sound.restorable (hs : Sound env s) : Restorable env s.disk where
  dirs := hs.dirs
  images x dir hdir hl := (hs.images x dir hdir hl).imp And.left And.left

theorem decode_ok {dir? : Option ImageDir} {c : Config}
    (h : decode id dir? = .ok (dir, c)) : dir? = some dir ∧ dir.Loads id := by
  unfold decode at h
  split at h
  · cases h
  split at h
  · cases h
  · cases h
  next c' hjson =>
  split at h
  · cases h
  next hv =>
  split at h
  · cases h
  next heq =>
    cases h
    exact ⟨rfl, c, hjson, by simpa using hv, by simpa using heq⟩

theorem loadImage_spec (fault : Option Step) (id : Str) (s : Store δ) :
    (∃ e, loadImage fault id s = (.error e, s) ∧
      (fault = some .readImage ∨ ∀ dir, s.disk.dirs.lookup id = some dir → ¬ dir.Loads id)) ∨
    ∃ dir c, loadImage fault id s = (.ok (dir, c), s) ∧ fault ≠ some .readImage ∧
      s.disk.dirs.lookup id = some dir ∧ dir.Loads id := by
  by_cases hf : fault = some .readImage
  · have hrun : loadImage fault id s = (.error (.failed .readImage), s) := by
      rw [loadImage, attempt, if_pos hf]
      rfl
    exact .inl ⟨_, hrun, .inl hf⟩
  · have hrun : loadImage fault id s = (decode id (s.disk.dirs.lookup id), s) := by
      rw [loadImage, attempt, if_neg hf]
      show (match decode id (s.disk.dirs.lookup id) with
        | .error e => fail e
        | .ok p => pure p : Act δ (ImageDir × Config)) s = _
      cases decode id (s.disk.dirs.lookup id) with
      | error e => rfl
      | ok p => rfl
    rw [hrun]
    cases hd : decode id (s.disk.dirs.lookup id) with
    | error e =>
      refine .inl ⟨e, rfl, .inr fun dir hdir hl => ?_⟩
      obtain ⟨c, hjson, hv, heq⟩ := hl
      rw [heq] at hv
      simp [decode, hdir, hjson, hv, heq] at hd
    | ok p =>
      obtain ⟨hdir, hl⟩ := decode_ok hd
      exact .inr ⟨p.1, p.2, rfl, hf, hdir, hl⟩

section

variable (hs : Sound env s)
include hs

/-- `Get` in a sound graph changes nothing. It returns the image unless the reading fails. -/
theorem get_spec (fault : Option Step) (name : Str) :
    (∃ e, get env fault name s = (.error e, s) ∧ (fault = some .readImage ∨
      ∀ id dir, indexGet s.mem name = .ok id → s.disk.dirs.lookup id = some dir → ¬ dir.Loads id)) ∨
    ∃ img dir, get env fault name s = (.ok img, s) ∧ fault ≠ some .readImage ∧
      indexGet s.mem name = .ok img.id ∧ s.disk.dirs.lookup img.id = some dir ∧ dir.Loads img.id := by
  cases hin : indexGet s.mem name with
  | error e =>
    refine .inl ⟨e, ?_, .inr nofun⟩
    show (match indexGet s.mem name with | .error e => fail e | .ok id => _ : Act δ Image) s = _
    rw [hin]
    rfl
  | ok id =>
    have hrun : get env fault name s = (loadImage fault id >>= fun p =>
        match p.1.layersize with
        | some size => pure ⟨id, p.1.parentOf p.2, size⟩
        | none => do
          match ← look fun _ d => env.diffSize d id (p.1.parentOf p.2) with
          | none => fail (.noSize id)
          | some size =>
            attempt fault .saveSize
            write (Disk.setDir id { p.1 with layersize := some size })
            pure ⟨id, p.1.parentOf p.2, size⟩ : Act δ Image) s := by
      show (match indexGet s.mem name with | .error e => fail e | .ok id => _ : Act δ Image) s = _
      rw [hin]
    rcases loadImage_spec fault id s with ⟨e, hload, hwhy⟩ | ⟨dir, c, hload, hf, hdir, hl⟩
    · refine .inl ⟨e, by rw [hrun, bind_run_error hload], hwhy.imp_right fun hno => ?_⟩
      intro id' dir hid hdir
      cases hid
      exact hno dir hdir
    · -- The size of a complete image is known, so nothing is saved.
      obtain ⟨size, hsize⟩ : ∃ size, dir.layersize = some size := by
        rcases hs.images id dir hdir hl with ⟨-, hout⟩ | ⟨hc, -⟩
        · exact (hout (indexGet_mem hin).1).elim
        · exact hc.size hdir
      refine .inr ⟨⟨id, dir.parentOf c, size⟩, dir, ?_, hf, rfl, hdir, hl⟩
      rw [hrun, bind_run_ok hload]
      simp only [hsize]
      rfl

theorem visible_iff :
    Visible env s id ↔ id ∈ s.mem ∧ ∃ dir, s.disk.dirs.lookup id = some dir ∧ dir.Loads id := by
  constructor
  · rintro ⟨img, himg, hid⟩
    rcases get_spec hs none id with ⟨e, hget, -⟩ | ⟨img', dir, hget, -, hin, hdir, hl⟩
    · rw [hget] at himg
      cases himg
    rw [hget] at himg
    cases himg
    rw [hid] at hin hdir hl
    exact ⟨(indexGet_mem hin).1, dir, hdir, hl⟩
  · rintro ⟨hmem, dir, hdir, hl⟩
    have hself := indexGet_self hs.ids hs.nodup hmem
    rcases get_spec hs none id with ⟨e, -, hwhy⟩ | ⟨img, dir', hget, -, hin, -, -⟩
    · rcases hwhy with hwhy | hwhy
      · cases hwhy
      · exact (hwhy id dir hself hdir hl).elim
    · rw [hself] at hin
      exact ⟨img, by rw [hget], (Except.ok.inj hin).symm⟩

/-- What `Get` returns is complete. -/
theorem get_complete {img : Image} (h : (get env none name s).1 = .ok img) :
    Complete env s.disk img.id := by
  rcases get_spec hs none name with ⟨e, hget, -⟩ | ⟨img', dir, hget, -, hin, hdir, hl⟩
  · rw [hget] at h
    cases h
  rw [hget] at h
  cases h
  rcases hs.images img.id dir hdir hl with ⟨-, hout⟩ | ⟨hc, -⟩
  · exact (hout (indexGet_mem hin).1).elim
  · exact hc

/-- A registered image that can be read exists. -/
theorem exists_of_visible (hv : Visible env s id) {fault : Option Step}
    (hf : fault ≠ some .readImage) :
    exists_ env fault id s = (.ok true, s) := by
  obtain ⟨hmem, dir, hdir, hl⟩ := (visible_iff hs).mp hv
  have hself := indexGet_self hs.ids hs.nodup hmem
  rcases get_spec hs fault id with ⟨e, -, hwhy⟩ | ⟨img, dir', hget, -⟩
  · rcases hwhy with hwhy | hwhy
    · exact (hf hwhy).elim
    · exact (hwhy id dir hself hdir hl).elim
  · simp only [exists_, hget]

end

/-- An image that is not registered does not, and what there is of it is no obstacle. -/
theorem exists_of_not_visible (fault : Option Step) (hs : Sound env s) (hid : validID id) (hv : ¬ Visible env s id) :
    exists_ env fault id s = (.ok false, s) ∧ Clear s.mem id s.disk := by
  constructor
  · rcases get_spec hs fault id with ⟨e, hget, -⟩ | ⟨img, dir, -, -, hin, hdir, hl⟩
    · simp only [exists_, hget]
    obtain ⟨hmem, hpre⟩ := indexGet_mem hin
    have heq := validID_begins hid (hs.ids _ hmem) hpre
    rw [← heq] at hmem hdir hl
    exact (hv ((visible_iff hs).mpr ⟨hmem, dir, hdir, hl⟩)).elim
  · intro dir hdir hl
    rcases hs.images id dir hdir hl with hclear | ⟨-, hmem⟩
    · exact hclear
    · exact (hv ((visible_iff hs).mpr ⟨hmem, dir, hdir, hl⟩)).elim

end Graph

/-! ## Runs -/

/-- A call of the graph. -/
inductive Call (δ : Type) where
  | register (im : Descriptor δ)
  | delete (name : Str)
  deriving DecidableEq, Repr

/-- The call, with the step that fails in it. -/
def Call.run (env : Env δ) (fault : Option Step) : Call δ → Act δ Unit
  | .register im => Durable.register env fault im
  | .delete name => Durable.delete env fault name

/-- What happens to the graph: a call, a call that a crash stops after so many writes, with a restart behind
it, or a restart. -/
inductive Event (δ : Type) where
  | call (c : Call δ) (fault : Option Step)
  | crash (c : Call δ) (fault : Option Step) (n : Nat)
  | restart
  deriving DecidableEq, Repr

/-- One event. A crash can only come after writes that the call makes. -/
def step (env : Env δ) (s : Store δ) : Event δ → Option (Store δ)
  | .call c fault =>
    let s' := (c.run env fault ⟨s.mem, s.disk, []⟩).2
    some ⟨s'.mem, s'.disk, []⟩
  | .crash c fault n => (crashes (c.run env fault) s.mem s.disk)[n]?.map newGraph
  | .restart => some (newGraph s.disk)

/-- The call and the failing step of an event. -/
def Event.made : Event δ → Option (Call δ × Option Step)
  | .call c fault => some (c, fault)
  | .crash c fault _ => some (c, fault)
  | .restart => none

/-- The event deletes the image. -/
def Deletes (s : Store δ) (ev : Event δ) (id : Str) : Prop :=
  ∃ name fault, ev.made = some (.delete name, fault) ∧ indexGet s.mem name = .ok id

/-- `Register` does not fail to read an image that is registered. -/
def Readable (env : Env δ) (s : Store δ) (ev : Event δ) : Prop :=
  ∀ im, ev.made = some (.register im, some .readImage) → ¬ Visible env s im.id

section Runs

variable {env : Env δ} {s s' : Store δ} {id : Str} {d : Disk δ} {index : List Str} {gone : Str → Prop}

section

variable (hs : Sound env s)
include hs

/-- What a call about one image leaves behind can be restored. -/
theorem Stopped.restorable (hid : validID id) (h : Stopped env id s.disk d) :
    Restorable env d where
  dirs x dir hdir := by
    by_cases hx : x = id
    · rw [hx]
      exact hid
    · rw [(h.1 x hx).1] at hdir
      exact hs.dirs x dir hdir
  images x := by
    by_cases hx : x = id
    · rw [hx]
      exact h.2
    intro dir hdir hl
    obtain ⟨hd, hlay⟩ := h.1 x hx
    rw [hd] at hdir
    rw [Complete, hd, hlay]
    exact (hs.images x dir hdir hl).imp And.left And.left

/-- An image that can be got has a directory that can be loaded, and a layer. -/
theorem Visible.parts (hv : Visible env s id) :
    id ∈ s.mem ∧ ∃ dir l, s.disk.dirs.lookup id = some dir ∧ dir.Loads id ∧
      s.disk.layers.lookup id = some l := by
  obtain ⟨hmem, dir, hdir, hl⟩ := (visible_iff hs).mp hv
  rcases hs.images id dir hdir hl with ⟨-, hout⟩ | ⟨hc, -⟩
  · exact (hout hmem).elim
  · obtain ⟨l, hlayer⟩ := hc.layer
    exact ⟨hmem, dir, l, hdir, hl, hlayer⟩

/-- An image that could be got can be got after a restart from a disk that has its parts. -/
theorem Visible.restart (hv : Visible env s id) (hd : Restorable env d)
    (hdir : d.dirs.lookup id = s.disk.dirs.lookup id)
    (hlayer : d.layers.lookup id = s.disk.layers.lookup id) : Visible env (newGraph d) id := by
  obtain ⟨-, dir, l, hdir₀, hl, hlayer₀⟩ := hv.parts hs
  have hmem := (mem_newGraph hd).mpr ⟨⟨dir, hdir.trans hdir₀⟩, l, hlayer.trans hlayer₀⟩
  exact (visible_iff (newGraph_sound hd)).mpr ⟨hmem, dir, hdir.trans hdir₀, hl⟩

/-- The graph after a call about one image. -/
theorem Stopped.sound (hid : validID id) (h : Stopped env id s.disk d)
    (hn : index.Nodup) (hmem : ∀ x, x ≠ id → (x ∈ index ↔ x ∈ s.mem))
    (himg : Clear index id d ∨ id ∈ index ∧ Complete env d id) : Sound env ⟨index, d, []⟩ where
  ids x hx := by
    by_cases hxid : x = id
    · rw [hxid]
      exact hid
    · exact hs.ids x ((hmem x hxid).mp hx)
  nodup := hn
  dirs := (h.restorable hs hid).dirs
  images x dir hdir hl := by
    by_cases hxid : x = id
    · subst hxid
      rcases himg with hclear | ⟨hin, hc⟩
      · exact .inl (hclear dir hdir hl)
      · exact .inr ⟨hc, hin⟩
    · obtain ⟨hd, hlay⟩ := h.1 x hxid
      have hold := hs.images x dir (hd.symm.trans hdir) hl
      simp only [Complete] at hold ⊢
      rw [hd, hlay, hmem x hxid]
      exact hold

end

/-- What a call comes to: the graph that it ends with is sound, the disks that it leaves when it is stopped
can be restored, and all images but those in `gone` stay in either case. -/
structure Kept (env : Env δ) (s : Store δ) (m : Act δ Unit) (gone : Str → Prop) : Prop where
  sound : Sound env (m ⟨s.mem, s.disk, []⟩).2
  visible : ∀ x, Visible env s x → ¬ gone x → Visible env (m ⟨s.mem, s.disk, []⟩).2 x
  restorable : ∀ d ∈ crashes m s.mem s.disk, Restorable env d
  restored : ∀ x, Visible env s x → ¬ gone x → ∀ d ∈ crashes m s.mem s.disk, Visible env (newGraph d) x

variable {m : Act δ Unit}

theorem kept_of_unchanged {r : Except Err Unit} (hs : Sound env s)
    (h : m ⟨s.mem, s.disk, []⟩ = (r, ⟨s.mem, s.disk, []⟩)) : Kept env s m gone := by
  have hsame : ∀ d ∈ crashes m s.mem s.disk, d = s.disk := by
    intro d hd
    simpa [crashes, h] using hd
  refine ⟨?_, fun x hv _ => ?_, fun d hd => ?_, fun x hv _ d hd => ?_⟩
  · rw [h]
    exact hs.fresh
  · rw [h]
    exact (visible_iff hs.fresh).mpr ((visible_iff hs).mp hv)
  · rw [hsame d hd]
    exact hs.restorable
  · rw [hsame d hd]
    exact hv.restart hs hs.restorable rfl rfl

/-- A call that changes one image only, and leaves it complete or not there. -/
theorem kept_of_safe {P A : List Str → Disk δ → Prop} (hs : Sound env s) (hid : validID id)
    (h : Safe (Stopped env id s.disk) P m (fun _ => A) A) (hP : P s.mem s.disk)
    (hA : ∀ v d, A v d → v.Nodup ∧ (∀ x, x ≠ id → (x ∈ v ↔ x ∈ s.mem)) ∧
      (Clear v id d ∨ id ∈ v ∧ Complete env d id))
    (hgone : ∀ x, Visible env s x → ¬ gone x → x ≠ id) : Kept env s m gone := by
  have hstart : Stopped env id s.disk s.disk := ⟨Elsewhere.refl id s.disk, hs.restorable.images id⟩
  have hcrash := h.crash hP hstart
  obtain ⟨hn, hmem, himg⟩ := hA _ _ (h.done hP hstart)
  have hend := hcrash (m ⟨s.mem, s.disk, []⟩).2.disk (by simp [crashes])
  have hsound := hend.sound hs hid hn hmem himg
  have hsound' : Sound env (m ⟨s.mem, s.disk, []⟩).2 := ⟨hsound.ids, hsound.nodup, hsound.dirs, hsound.images⟩
  refine ⟨hsound', fun x hv hx => ?_, fun d hd => (hcrash d hd).restorable hs hid, fun x hv hx d hd => ?_⟩
  · have hne := hgone x hv hx
    obtain ⟨hin, dir, l, hdir, hl, -⟩ := hv.parts hs
    exact (visible_iff hsound').mpr ⟨(hmem x hne).mpr hin, dir, (hend.1 x hne).1.trans hdir, hl⟩
  · have hother := (hcrash d hd).1 x (hgone x hv hx)
    exact hv.restart hs ((hcrash d hd).restorable hs hid) hother.1 hother.2

theorem Kept.congr (m' : Act δ Unit)
    (h : m ⟨s.mem, s.disk, []⟩ = m' ⟨s.mem, s.disk, []⟩) (hk : Kept env s m' gone) :
    Kept env s m gone := by
  have hc : crashes m s.mem s.disk = crashes m' s.mem s.disk := by rw [crashes, crashes, h]
  refine ⟨?_, ?_, ?_, ?_⟩
  · rw [h]
    exact hk.sound
  · rw [h]
    exact hk.visible
  · rw [hc]
    exact hk.restorable
  · rw [hc]
    exact hk.restored

theorem register_kept (fault : Option Step) (hs : Sound env s) (im : Descriptor δ)
    (hread : fault = some .readImage → ¬ Visible env s im.id) :
    Kept env s (register env fault im) fun _ => False := by
  have hvis : Visible env ⟨s.mem, s.disk, []⟩ im.id ↔ Visible env s im.id :=
    (visible_iff hs.fresh).trans (visible_iff hs).symm
  by_cases hid : validID im.id = false
  · refine kept_of_unchanged hs (r := .error (.invalidID im.id)) ?_
    rw [register, if_pos hid]
    rfl
  have hid' : validID im.id := by simpa using hid
  by_cases hv : Visible env s im.id
  · have hex := exists_of_visible hs.fresh (hvis.mpr hv) fun hf : fault = some .readImage => hread hf hv
    refine kept_of_unchanged hs (r := .ok ()) ?_
    rw [register, if_neg hid, bind_run_ok hex]
    rfl
  · obtain ⟨hex, hclear⟩ := exists_of_not_visible fault hs.fresh hid' fun h => hv (hvis.mp h)
    refine Kept.congr ((registerNew env fault im).onError (removeLayer fault .removeAgain im.id)) ?_ ?_
    · rw [register, if_neg hid, bind_run_ok hex]
      rfl
    refine kept_of_safe hs hid' (A := fun v d => v = indexAdd s.mem im.id ∧ Complete env d im.id ∨
      v = s.mem ∧ Clear s.mem im.id d) ((registerNew_safe im).mono (fun _ _ h => h)
      (fun _ _ _ => .inl) fun _ _ => .inr) ⟨rfl, hclear⟩ (fun v d h => ?_) fun x hx _ => ?_
    · rcases h with ⟨rfl, hc⟩ | ⟨rfl, hc⟩
      · refine ⟨nodup_indexAdd hid' hs.nodup, fun x hx => ?_, .inr ⟨?_, hc⟩⟩
        · simp [mem_indexAdd hid', hx]
        · simp [mem_indexAdd hid']
      · exact ⟨hs.nodup, fun _ _ => .rfl, .inl hc⟩
    · rintro rfl
      exact hv hx

theorem delete_kept (fault : Option Step) (hs : Sound env s) (name : Str) :
    Kept env s (delete env fault name) fun id => indexGet s.mem name = .ok id := by
  cases hin : indexGet s.mem name with
  | error e =>
    refine kept_of_unchanged hs (r := .error e) ?_
    show (match indexGet s.mem name with
      | .error e => fail e
      | .ok id => deleteID env fault id : Act δ Unit) _ = _
    rw [hin]
    rfl
  | ok id =>
    refine Kept.congr (deleteID env fault id) ?_ ?_
    · show (match indexGet s.mem name with
        | .error e => fail e
        | .ok id => deleteID env fault id : Act δ Unit) _ = _
      rw [hin]
    refine kept_of_safe hs (hs.ids id (indexGet_mem hin).1) (deleteID_safe hs.nodup) ⟨rfl, trivial⟩
      (fun v d h => ?_) fun x _ hx => ?_
    · obtain ⟨rfl, hc⟩ := h
      exact ⟨hs.nodup.erase id, fun x => mem_erase_of_ne, .inl hc⟩
    · rintro rfl
      exact hx rfl

/-- One event: the graph stays sound, and the images that are not deleted stay. -/
theorem step_keeps {ev : Event δ} (hs : Sound env s) (hread : Readable env s ev) (h : step env s ev = some s') :
    Sound env s' ∧ ∀ id, Visible env s id → ¬ Deletes s ev id → Visible env s' id := by
  have hcall : ∀ c fault, ev.made = some (c, fault) → Kept env s (c.run env fault) (Deletes s ev) := by
    intro c fault hmade
    cases c with
    | register im =>
      have hk := register_kept fault hs im fun hf => hread im (by rw [hmade, hf])
      exact ⟨hk.sound, fun x hx _ => hk.visible x hx id, hk.restorable, fun x hx _ => hk.restored x hx id⟩
    | delete name =>
      have hk := delete_kept fault hs name
      have hgone : ∀ x, ¬ Deletes s ev x → ¬ indexGet s.mem name = .ok x :=
        fun x hx hin => hx ⟨name, fault, hmade, hin⟩
      exact ⟨hk.sound, fun x hv hx => hk.visible x hv (hgone x hx), hk.restorable,
        fun x hv hx => hk.restored x hv (hgone x hx)⟩
  cases ev with
  | call c fault =>
    have hk := hcall c fault rfl
    cases h
    have hsound : Sound env (⟨(c.run env fault ⟨s.mem, s.disk, []⟩).2.mem,
        (c.run env fault ⟨s.mem, s.disk, []⟩).2.disk, []⟩ : Store δ) :=
      ⟨hk.sound.ids, hk.sound.nodup, hk.sound.dirs, hk.sound.images⟩
    refine ⟨hsound, fun x hv hx => ?_⟩
    exact (visible_iff hsound).mpr ((visible_iff hk.sound).mp (hk.visible x hv hx))
  | crash c fault n =>
    have hk := hcall c fault rfl
    obtain ⟨d, hd, rfl⟩ := Option.map_eq_some_iff.mp h
    have hmem := mem_of_getElem? hd
    exact ⟨newGraph_sound (hk.restorable d hmem), fun x hv hx => hk.restored x hv hx d hmem⟩
  | restart =>
    cases h
    exact ⟨newGraph_sound hs.restorable, fun x hv _ => hv.restart hs hs.restorable rfl rfl⟩

end Runs

/-! ## A run -/

/-- A graph whose directories are listed by name, with archives measured by their length. -/
def plain : Env Nat where
  order := [.json, .layersize, .parent]
  weigh := length
  diffSize _ _ _ := none

/-- A graph with nothing in it. -/
def blank : Store Nat := newGraph ⟨∅, ∅⟩

theorem blank_sound : Sound plain blank := by
  refine newGraph_sound ⟨fun id dir h => ?_, fun id dir h => ?_⟩
  · rw [lookup_empty] at h
    cases h
  · rw [lookup_empty] at h
    cases h

/-- An image with one entry in its layer, and one on top of it. -/
def base : Descriptor Nat where
  id := replicate 64 'a'
  parent := []
  marshalConfig := some (some ⟨replicate 64 'a', [], none⟩)
  layerData := some ⟨[1], false⟩

def onBase : Descriptor Nat where
  id := replicate 64 'b'
  parent := base.id
  marshalConfig := some (some ⟨replicate 64 'b', base.id, none⟩)
  layerData := some ⟨[2, 3], false⟩

/-- An event in which no step fails reads what it has to. -/
theorem readable_of_none {s : Store δ} {ev : Event δ} {env : Env δ}
    (h : ∀ c fault, ev.made = some (c, fault) → fault = none) : Readable env s ev := by
  intro im hmade
  cases h _ _ hmade

end DockerEngine.Images.Durable
