import DockerEngine.Images.Graph
import DockerEngine.Lib.Loop

/-!
# The ids of pulled images: `getImageInfos` and `attemptIDReuse`

`graph/pull_v2.go` gives every image of a manifest an id computed from its content, the strong id. Where the
graph already has the image under the id the manifest names it by, the compatibility id, that one is kept;
where it has something else under the strong id, the ids behind it are probed, one hash after the other.
Then each image gets the id of the one below as its parent.

Before all that the configurations of the images under the compatibility ids are generated, and when that
fails for one of them the function returns at once: no id has been checked, and no parent has been set.
`getImageInfos_valid_iff` says that the ids are checked and chained exactly when the generation does not
fail, a manifest of one image apart, whose parent is right by itself. It also says that the probing ends if
hashing leads out of the graph.

JSON texts, configurations and digests are of any type, with the functions on them given (`Codec`). Locks
are not modelled, except that a generation that comes back to an image it has locked does not return. A
failed write leaves no file.
-/

namespace DockerEngine.Pull

open Filepath Images Option Loop Graph

/-! ## Manifests -/

/-- A layer of a manifest: the text of its history entry and the digest of its blob. -/
structure ManifestLayer (V D : Type) where
  v1Compatibility : V
  blobSum : D
  deriving DecidableEq, Repr

/-- The functions on JSON texts (`V`), configurations (`C`) and digests (`D`). -/
structure Codec (V C D : Type) where
  /-- `image.NewImgJSON`: the id and the parent in a text. -/
  newImgJSON : V → Option Image
  /-- The id alone, as `GenerateV1CompatibilityChain` reads it. -/
  idOf : V → Option Str
  /-- `image.MakeImageConfig`, with the digest of the layer and the strong id of the parent. -/
  makeImageConfig : V → D → Option D → Option C
  /-- `image.StrongID`. -/
  strongID : C → D
  /-- `Digest.Hex`. -/
  hex : D → Str
  /-- The hash of an id, as an id. -/
  nextID : Str → Str
  hex_valid : ∀ d, validID (hex d) = true

variable {V C D : Type}

/-- The errors of `fixManifestLayers`. -/
inductive FixErr where
  | newImgJSON
  /-- "image ID '" + id + "' is invalid". -/
  | validateID (id : Str)
  /-- "Invalid parent ID in the base layer of the image." -/
  | baseParent
  /-- "ID " + id + " appears multiple times in manifest." -/
  | repeated (id : Str)
  /-- "Invalid parent ID. Expected " + expected + ", got " + got + "." -/
  | parent (expected got : Str)
  deriving DecidableEq, Repr

/-- The images of a manifest, with their ids checked. -/
def parseImages (c : Codec V C D) : List (ManifestLayer V D) → Except FixErr (List (ManifestLayer V D × Image))
  | [] => .ok []
  | l :: ls =>
    match c.newImgJSON l.v1Compatibility with
    | none => .error .newImgJSON
    | some i =>
      if validID i.id then
        match parseImages c ls with
        | .error e => .error e
        | .ok rest => .ok ((l, i) :: rest)
      else .error (.validateID i.id)

/-- No id comes again later, unless directly. -/
def checkRepeated : List Image → List Str → Str → Except FixErr Unit
  | [], _, _ => .ok ()
  | i :: rest, seen, last =>
    if i.id ≠ last ∧ i.id ∈ seen then .error (.repeated i.id)
    else checkRepeated rest (i.id :: seen) i.id

/-- From the base up, a layer with the id of the one below is dropped, and any other must have it as its
parent. -/
def dropRepeated : List (ManifestLayer V D × Image) → Except FixErr (List (ManifestLayer V D))
  | [] => .ok []
  | [(l, _)] => .ok [l]
  | (l, i) :: (l', i') :: rest =>
    match dropRepeated ((l', i') :: rest) with
    | .error e => .error e
    | .ok ls =>
      if i.id = i'.id then .ok ls
      else if i.parent ≠ i'.id then .error (.parent i'.id i.parent)
      else .ok (l :: ls)

/-- `fixManifestLayers`. -/
def fixManifestLayers (c : Codec V C D) (m : List (ManifestLayer V D)) : Except FixErr (List (ManifestLayer V D)) :=
  match parseImages c m with
  | .error e => .error e
  | .ok images =>
    if (images.getLast?.map fun x => x.2.parent) ≠ some [] then .error .baseParent
    else
      match checkRepeated (images.map Prod.snd) [] [] with
      | .error e => .error e
      | .ok _ => dropRepeated images

/-! ## Descriptors -/

/-- `contentAddressableDescriptor`. -/
structure Descriptor (V C D : Type) where
  id : Str
  parent : Str
  strongID : D
  compatibilityID : Str
  config : C
  v1Compatibility : V
  deriving DecidableEq, Repr

/-- The errors of `newContentAddressableImage`. -/
inductive InfoErr where
  | makeImageConfig
  | newImgJSON
  deriving DecidableEq, Repr

/-- `newContentAddressableImage`. -/
def newContentAddressableImage (c : Codec V C D) (l : ManifestLayer V D) (parent : Option D) :
    Except InfoErr (Descriptor V C D) :=
  match c.makeImageConfig l.v1Compatibility l.blobSum parent with
  | none => .error .makeImageConfig
  | some config =>
    match c.newImgJSON l.v1Compatibility with
    | none => .error .newImgJSON
    | some i =>
      .ok { id := c.hex (c.strongID config), parent := [], strongID := c.strongID config,
            compatibilityID := i.id, config := config, v1Compatibility := l.v1Compatibility }

/-- The descriptors of a manifest, from the base up: a strong id goes into that of the image above. -/
def newImages (c : Codec V C D) : List (ManifestLayer V D) → Except InfoErr (List (Descriptor V C D))
  | [] => .ok []
  | l :: ls =>
    match newImages c ls with
    | .error e => .error e
    | .ok imgs =>
      match newContentAddressableImage c l (imgs.head?.map Descriptor.strongID) with
      | .error e => .error e
      | .ok img => .ok (img :: imgs)

/-! ## The graph on disk -/

/-- The graph with the files of its images. -/
structure Store (V D : Type) where
  graph : Graph
  /-- `getLayerDigest`. -/
  layerDigest : Str → Option D
  /-- `getV1CompatibilityConfig`. -/
  v1Config : Str → Option V
  /-- The JSON text of an image of the graph, with a parent put in. -/
  marshal : Str → Str → Option V
  /-- Whether files can be written for an id. -/
  writable : Str → Bool

/-- `Graph.Exists`. -/
def Store.exists_ (st : Store V D) (id : Str) : Bool :=
  match st.graph.get id with
  | .error _ => false
  | .ok _ => true

/-- `setV1CompatibilityConfig`, where it succeeds. -/
def Store.setV1Config (st : Store V D) (id : Str) (v : V) : Store V D :=
  { st with v1Config := Function.update st.v1Config id (some v) }

/-- The errors of `GenerateV1CompatibilityChain`. -/
inductive GenerateErr where
  | get (e : GetErr)
  | unmarshal
  | marshal
  | write
  deriving DecidableEq, Repr

/-- The text of an image is made and stored. -/
def storeV1Config (st : Store V D) (id parent : Str) : Except GenerateErr V × Store V D :=
  match st.marshal id parent with
  | none => (.error .marshal, st)
  | some v => if st.writable id then (.ok v, st.setV1Config id v) else (.error .write, st)

/-- `GenerateV1CompatibilityChain`, through a bounded number of images. -/
def generateV1CompatibilityChain (c : Codec V C D) : Nat → Str → Store V D → Option (Except GenerateErr V × Store V D)
  | 0, _, _ => none
  | n + 1, id, st =>
    match st.v1Config id with
    | some v => some (.ok v, st)
    | none =>
      match st.graph.get id with
      | .error e => some (.error (.get e), st)
      | .ok img =>
        if img.parent = [] then some (storeV1Config st id [])
        else
          match generateV1CompatibilityChain c n img.parent st with
          | none => none
          | some (.error e, st') => some (.error e, st')
          | some (.ok parentConfig, st') =>
            match c.idOf parentConfig with
            | none => some (.error .unmarshal, st')
            | some parent => some (storeV1Config st' id parent)

/-- The first loop of `attemptIDReuse`, which leaves the function when a generation fails. A generation that
has gone through more images than the graph has is at one that it has locked, and waits for ever. -/
def generateAll (c : Codec V C D) : List (Descriptor V C D) → Store V D → Option (Bool × Store V D)
  | [], st => some (true, st)
  | img :: rest, st =>
    if st.exists_ img.compatibilityID then
      match generateV1CompatibilityChain c (st.graph.images.length + 1) img.compatibilityID st with
      | none => none
      | some (.error _, st') => some (false, st')
      | some (.ok _, st') => generateAll c rest st'
    else generateAll c rest st

/-! ## Choosing the ids -/

/-- The errors of `validateImageInGraph`. -/
inductive ValidateErr where
  | missing (e : GetErr)
  | digest
  | parent (got expected : Str)
  | unexpectedParent (got : Str)
  | v1Compatibility (id : Str)
  | makeConfig
  | digestMismatch
  deriving DecidableEq, Repr

/-- The parent of an image in the graph must be the image below, if there is one. -/
def validateParent (parent : Str) : Option (Str × D) → Except ValidateErr (Option D)
  | none => if parent ≠ [] then .error (.unexpectedParent parent) else .ok none
  | some (id, strongID) => if parent ≠ id then .error (.parent parent id) else .ok (some strongID)

/-- `validateImageInGraph`. -/
def validateImageInGraph [DecidableEq D] (c : Codec V C D) (st : Store V D) (id : Str)
    (imgs : List (Descriptor V C D)) (i : Nat) : Except ValidateErr Unit :=
  match st.graph.get id with
  | .error e => .error (.missing e)
  | .ok img =>
    match st.layerDigest id with
    | none => .error .digest
    | some layerID =>
      match validateParent img.parent (imgs[i + 1]?.map fun d => (d.id, d.strongID)) with
      | .error e => .error e
      | .ok parentID =>
        match st.v1Config img.id with
        | none => .error (.v1Compatibility img.id)
        | some v1Config =>
          match c.makeImageConfig v1Config layerID parentID with
          | none => .error .makeConfig
          | some config =>
            if imgs[i]?.map Descriptor.strongID = some (c.strongID config) then .ok ()
            else .error .digestMismatch

/-- `tryNextID`: the next id, which is taken if the graph has nothing else under it. -/
def tryNextID [DecidableEq D] (c : Codec V C D) (st : Store V D) (imgs : List (Descriptor V C D))
    (id : Str) : Str ⊕ Str :=
  if st.exists_ (c.nextID id) then
    match validateImageInGraph c st (c.nextID id) imgs 0 with
    | .ok _ => .inr (c.nextID id)
    | .error _ => .inl (c.nextID id)
  else .inr (c.nextID id)

/-- The second loop of `attemptIDReuse`, from the base up. The flag is `continueReuse`. At most `k` ids are
probed for one image. -/
def chooseIDs [DecidableEq D] (c : Codec V C D) (st : Store V D) (k : Nat) :
    List (Descriptor V C D) → Option (List (Descriptor V C D) × Bool)
  | [] => some ([], true)
  | img :: rest =>
    match chooseIDs c st k rest with
    | none => none
    | some (below, continueReuse) =>
      if st.exists_ img.id then
        match validateImageInGraph c st img.id (img :: below) 0 with
        | .ok _ => some (img :: below, continueReuse)
        | .error _ =>
          match run (tryNextID c st (img :: below)) k img.id with
          | none => none
          | some id => some ({ img with id := id } :: below, false)
      else if continueReuse then
        match validateImageInGraph c st img.compatibilityID (img :: below) 0 with
        | .ok _ => some ({ img with id := img.compatibilityID } :: below, true)
        | .error _ => some (img :: below, false)
      else some (img :: below, false)

/-- The last loop of `attemptIDReuse`. -/
def fixParents : List (Descriptor V C D) → List (Descriptor V C D)
  | [] => []
  | img :: rest => { img with parent := (rest.head?.map Descriptor.id).getD [] } :: fixParents rest

/-- `attemptIDReuse`. -/
def attemptIDReuse [DecidableEq D] (c : Codec V C D) (k : Nat) (imgs : List (Descriptor V C D))
    (st : Store V D) : Option (List (Descriptor V C D) × Store V D) :=
  match generateAll c imgs st with
  | none => none
  | some (false, st') => some (imgs, st')
  | some (true, st') =>
    match chooseIDs c st' k imgs with
    | none => none
    | some (imgs', _) => some (fixParents imgs', st')

/-- `getImageInfos`. -/
def getImageInfos [DecidableEq D] (c : Codec V C D) (k : Nat) (m : List (ManifestLayer V D))
    (st : Store V D) : Option (Except InfoErr (List (Descriptor V C D)) × Store V D) :=
  match newImages c m with
  | .error e => some (.error e, st)
  | .ok imgs =>
    match attemptIDReuse c k imgs st with
    | none => none
    | some (imgs', st') => some (.ok imgs', st')

/-- What the graph has under the ids of the images are these images. -/
def Checked [DecidableEq D] (c : Codec V C D) (st : Store V D) (imgs : List (Descriptor V C D)) : Prop :=
  ∀ (i : Nat) (d : Descriptor V C D), imgs[i]? = some d →
    st.exists_ d.id = false ∨ validateImageInGraph c st d.id imgs i = .ok ()

/-- The parents lead to the image below, and what the graph has under an id is that image. -/
structure ValidChain [DecidableEq D] (c : Codec V C D) (st : Store V D)
    (imgs : List (Descriptor V C D)) : Prop where
  parents : ∀ (i : Nat) (d : Descriptor V C D), imgs[i]? = some d →
    d.parent = (imgs[i + 1]?.map Descriptor.id).getD []
  checked : Checked c st imgs

/-- The configuration of an image can be had: it is stored, or the image is in the graph, the configuration
of its parent can be had, and its own can be stored. -/
inductive Generates (c : Codec V C D) (st : Store V D) : Str → V → Prop
  | stored {id : Str} {v : V} (h : st.v1Config id = some v) : Generates c st id v
  | base {id : Str} {v : V} {img : Image} (hnone : st.v1Config id = none)
      (hget : st.graph.get id = .ok img) (hp : img.parent = []) (hm : st.marshal id [] = some v)
      (hw : st.writable id = true) : Generates c st id v
  | child {id parent : Str} {v w : V} {img : Image} (hnone : st.v1Config id = none)
      (hget : st.graph.get id = .ok img) (hp : img.parent ≠ []) (hparent : Generates c st img.parent w)
      (hid : c.idOf w = some parent) (hm : st.marshal id parent = some v)
      (hw : st.writable id = true) : Generates c st id v

/-- The configuration of every image that the graph has under a compatibility id can be had. -/
def Generable (c : Codec V C D) (st : Store V D) (m : List (ManifestLayer V D)) : Prop :=
  ∀ l ∈ m, ∀ i ∈ c.newImgJSON l.v1Compatibility, st.exists_ i.id = true → ∃ v, Generates c st i.id v

/-! ## Generating the configurations -/

section Generation

variable {c : Codec V C D} {st st' st'' : Store V D} {id : Str} {v w : V}

section

variable {img : Image} (hnone : st.v1Config id = none) (hget : st.graph.get id = .ok img)
include hnone hget

/-- An image without a parent has the configuration made without one. -/
theorem generates_base_iff (hp : img.parent = []) :
    Generates c st id v ↔ st.marshal id [] = some v ∧ st.writable id := by
  refine ⟨fun h => ?_, fun ⟨hm, hw⟩ => .base hnone hget hp hm hw⟩
  cases h with
  | stored h => cases hnone.symm.trans h
  | base _ _ _ hm hw => exact ⟨hm, hw⟩
  | child _ hget' hp' =>
    cases hget.symm.trans hget'
    exact absurd hp hp'

/-- Any other image has the one made of that of its parent. -/
theorem generates_child_iff (hp : img.parent ≠ []) :
    Generates c st id v ↔ ∃ w parent, Generates c st img.parent w ∧ c.idOf w = some parent ∧
      st.marshal id parent = some v ∧ st.writable id := by
  refine ⟨fun h => ?_, fun ⟨_, _, hparent, hid, hm, hw⟩ => .child hnone hget hp hparent hid hm hw⟩
  cases h with
  | stored h => cases hnone.symm.trans h
  | base _ hget' hp' =>
    cases hget.symm.trans hget'
    exact absurd hp' hp
  | child _ hget' _ hparent hid hm hw =>
    cases hget.symm.trans hget'
    exact ⟨_, _, hparent, hid, hm, hw⟩

end

section

variable (h : Generates c st id v)
include h

theorem Generates.unique (h' : Generates c st id w) : v = w := by
  induction h generalizing w with
  | stored h =>
    cases h' with
    | stored h' => exact some.inj (h.symm.trans h')
    | base hnone => cases h.symm.trans hnone
    | child hnone => cases h.symm.trans hnone
  | base hnone hget hp hm =>
    exact some.inj (hm.symm.trans ((generates_base_iff hnone hget hp).mp h').1)
  | child hnone hget hp _ hid hm _ ih =>
    obtain ⟨w', parent', hparent', hid', hm', -⟩ := (generates_child_iff hnone hget hp).mp h'
    cases ih hparent'
    cases hid.symm.trans hid'
    exact some.inj (hm.symm.trans hm')

/-- Storing a configuration that can be had changes nothing about which can be had. -/
theorem generates_setV1Config {j : Str} :
    Generates c (st.setV1Config id v) j w ↔ Generates c st j w := by
  have hself : (st.setV1Config id v).v1Config id = some v := Function.update_self ..
  have hother : ∀ {j}, j ≠ id → (st.setV1Config id v).v1Config j = st.v1Config j :=
    fun hne => Function.update_of_ne hne ..
  constructor
  · intro hj
    have hunset : ∀ {j}, (st.setV1Config id v).v1Config j = none → st.v1Config j = none := by
      intro j hnone
      rwa [hother] at hnone
      rintro rfl
      cases hself.symm.trans hnone
    induction hj with
    | @stored j w hw =>
      by_cases heq : j = id
      · subst heq
        cases hself.symm.trans hw
        exact h
      · exact .stored ((hother heq).symm.trans hw)
    | base hnone hget hp hm hw => exact .base (hunset hnone) hget hp hm hw
    | child hnone hget hp _ hid hm hw ih => exact .child (hunset hnone) hget hp ih hid hm hw
  · intro hj
    have hput : ∀ {j w}, Generates c st j w → (j ≠ id → Generates c (st.setV1Config id v) j w) →
        Generates c (st.setV1Config id v) j w := by
      intro j w hw hne
      by_cases heq : j = id
      · subst heq
        cases h.unique hw
        exact .stored hself
      · exact hne heq
    induction hj with
    | stored hw => exact hput (.stored hw) fun hne => .stored ((hother hne).trans hw)
    | base hnone hget hp hm hw =>
      exact hput (.base hnone hget hp hm hw) fun hne => .base ((hother hne).trans hnone) hget hp hm hw
    | child hnone hget hp hparent hid hm hw ih =>
      exact hput (.child hnone hget hp hparent hid hm hw) fun hne =>
        .child ((hother hne).trans hnone) hget hp ih hid hm hw

end

/-- What a generation leaves of the graph: more configurations are stored, and the same can be had. -/
structure Grown (c : Codec V C D) (st st' : Store V D) : Prop where
  graph : st'.graph = st.graph
  marshal : st'.marshal = st.marshal
  writable : st'.writable = st.writable
  generates : ∀ id v, Generates c st' id v ↔ Generates c st id v

theorem Grown.refl : Grown c st st :=
  ⟨rfl, rfl, rfl, fun _ _ => .rfl⟩

theorem Grown.trans (h : Grown c st st') (h' : Grown c st' st'') : Grown c st st'' where
  graph := h'.graph.trans h.graph
  marshal := h'.marshal.trans h.marshal
  writable := h'.writable.trans h.writable
  generates id v := (h'.generates id v).trans (h.generates id v)

theorem Grown.exists_eq (h : Grown c st st') (id : Str) : st'.exists_ id = st.exists_ id := by
  unfold Store.exists_
  rw [h.graph]

/-- The outcome of a generation: the configuration that can be had, or an error if there is none. -/
structure Outcome (c : Codec V C D) (st : Store V D) (id : Str) (r : Except GenerateErr V)
    (st' : Store V D) : Prop where
  grown : Grown c st st'
  ok : ∀ v, r = .ok v → Generates c st id v
  error : ∀ e, r = .error e → ∀ v, ¬ Generates c st id v

theorem Outcome.of_ok (hgrown : Grown c st st') (h : Generates c st id v) : Outcome c st id (.ok v) st' :=
  ⟨hgrown, fun _ heq => Except.ok.inj heq ▸ h, nofun⟩

theorem Outcome.of_error {e : GenerateErr} (hgrown : Grown c st st')
    (h : ∀ v, ¬ Generates c st id v) : Outcome c st id (.error e) st' :=
  ⟨hgrown, nofun, fun _ _ => h⟩

variable {r : Except GenerateErr V}

/-- The configuration made with the parent is the one that can be had, if any. -/
theorem storeV1Config_outcome {parent : Str} (hgrown : Grown c st st')
    (hgen : ∀ v, Generates c st id v ↔ st.marshal id parent = some v ∧ st.writable id)
    (h : storeV1Config st' id parent = (r, st'')) : Outcome c st id r st'' := by
  rw [storeV1Config, hgrown.marshal, hgrown.writable] at h
  cases hm : st.marshal id parent with
  | none =>
    rw [hm] at h
    cases h
    apply Outcome.of_error hgrown
    intro v hv
    rw [hgen, hm] at hv
    cases hv.1
  | some v =>
    simp only [hm] at h
    by_cases hw : st.writable id
    · have hv : Generates c st id v := (hgen v).mpr ⟨hm, hw⟩
      have hset : Grown c st' (st'.setV1Config id v) :=
        ⟨rfl, rfl, rfl, fun _ _ => generates_setV1Config ((hgrown.generates id v).mpr hv)⟩
      rw [if_pos hw] at h
      cases h
      exact .of_ok (hgrown.trans hset) hv
    · rw [if_neg hw] at h
      cases h
      apply Outcome.of_error hgrown
      intro v' hv'
      exact hw ((hgen v').mp hv').2

theorem generateV1CompatibilityChain_outcome {n : Nat}
    (h : generateV1CompatibilityChain c n id st = some (r, st')) : Outcome c st id r st' := by
  induction n generalizing id r st' with
  | zero => cases h
  | succ n ih =>
    rw [generateV1CompatibilityChain] at h
    split at h
    next v hv =>
      cases h
      exact .of_ok .refl (.stored hv)
    next hnone =>
    split at h
    next e hget =>
      cases h
      refine .of_error .refl fun v hgen => ?_
      cases hgen with
      | stored hs => simp [hnone] at hs
      | base _ hget' => simp [hget] at hget'
      | child _ hget' => simp [hget] at hget'
    next img hget =>
    split at h
    next hp => exact storeV1Config_outcome .refl (fun _ => generates_base_iff hnone hget hp) (some.inj h)
    next hp =>
    have hiff := fun v => generates_child_iff (c := c) (v := v) hnone hget hp
    split at h
    · cases h
    next e st₁ hrec =>
      cases h
      refine .of_error (ih hrec).grown fun v hgen => ?_
      obtain ⟨w, -, hparent, -⟩ := (hiff v).mp hgen
      exact (ih hrec).error e rfl w hparent
    next w st₁ hrec =>
    -- the configuration of the parent is unique, so its id is what the generation read
    have hparent := (ih hrec).ok w rfl
    split at h
    next hid =>
      cases h
      refine .of_error (ih hrec).grown fun v hgen => ?_
      obtain ⟨w', parent, hparent', hid', -⟩ := (hiff v).mp hgen
      cases hparent.unique hparent'
      cases hid.symm.trans hid'
    next parent hid =>
      refine storeV1Config_outcome (ih hrec).grown (fun v => (hiff v).trans ⟨?_, ?_⟩) (some.inj h)
      · rintro ⟨w', parent', hparent', hid', hm⟩
        cases hparent.unique hparent'
        cases hid.symm.trans hid'
        exact hm
      · exact fun hm => ⟨w, parent, hparent, hid, hm⟩

/-- The first loop goes on to its end exactly when all the configurations it asks for can be had. -/
theorem generateAll_spec {imgs : List (Descriptor V C D)} {done : Bool}
    (h : generateAll c imgs st = some (done, st')) :
    Grown c st st' ∧ (done ↔ ∀ d ∈ imgs, st.exists_ d.compatibilityID → ∃ v, Generates c st d.compatibilityID v) := by
  induction imgs generalizing st with
  | nil =>
    cases h
    exact ⟨.refl, by simp⟩
  | cons img rest ih =>
    rw [generateAll] at h
    rw [List.forall_mem_cons]
    split at h
    case isTrue hexists =>
      split at h
      · cases h
      next e st₁ hgen =>
        cases h
        have hout := generateV1CompatibilityChain_outcome hgen
        refine ⟨hout.grown, by simp, fun hall => ?_⟩
        obtain ⟨v, hv⟩ := hall.1 hexists
        exact absurd hv (hout.error e rfl v)
      next v st₁ hgen =>
        have hout := generateV1CompatibilityChain_outcome hgen
        obtain ⟨hgrown, hiff⟩ := ih h
        refine ⟨hout.grown.trans hgrown, ?_⟩
        rw [hiff]
        simp only [hout.grown.exists_eq, hout.grown.generates]
        exact ⟨fun hrest => ⟨fun _ => ⟨v, hout.ok v rfl⟩, hrest⟩, fun hall => hall.2⟩
    case isFalse hexists =>
      obtain ⟨hgrown, hiff⟩ := ih h
      refine ⟨hgrown, ?_⟩
      rw [hiff]
      exact ⟨fun hrest => ⟨fun hex => absurd hex hexists, hrest⟩, fun hall => hall.2⟩

/-- In an acyclic graph a generation returns. -/
theorem generateV1CompatibilityChain_returns {rank : Str → Nat}
    (hrank : ∀ i ∈ st.graph.images, ∀ p, st.graph.getParent i = .ok (some p) → rank p.id < rank i.id) :
    ∀ {n : Nat} {id : Str}, 0 < n →
      (∀ img, st.graph.get id = .ok img → (st.graph.lower rank img).card + 1 < n) →
      generateV1CompatibilityChain c n id st ≠ none := by
  intro n
  induction n with
  | zero =>
    intro id hn
    omega
  | succ n ih =>
    intro id _ hcard
    rw [generateV1CompatibilityChain]
    cases st.v1Config id with
    | some v => exact Option.some_ne_none _
    | none =>
      cases hget : st.graph.get id with
      | error e => exact Option.some_ne_none _
      | ok img =>
        have hlt := hcard img hget
        simp only
        split
        · exact Option.some_ne_none _
        next hp =>
          have hrec : generateV1CompatibilityChain c n img.parent st ≠ none := by
            apply ih (by omega)
            intro p hgetp
            have hmem := (mem_of_get hget).1
            have hparent : st.graph.getParent img = .ok (some p) := by
              rw [getParent, if_neg hp, hgetp]
              rfl
            have hp' := (mem_of_getParent hparent).1
            have := lower_card_lt hp' (hrank img hmem p hparent)
            omega
          split
          next hnone => exact absurd hnone hrec
          · exact Option.some_ne_none _
          · split <;> exact Option.some_ne_none _

theorem generateAll_returns (h : st.graph.Acyclic) (imgs : List (Descriptor V C D)) :
    generateAll c imgs st ≠ none := by
  induction imgs generalizing st with
  | nil => nofun
  | cons img rest ih =>
    rw [generateAll]
    split
    · obtain ⟨rank, hrank⟩ := h
      have hgen : generateV1CompatibilityChain c (st.graph.images.length + 1) img.compatibilityID st ≠ none := by
        apply generateV1CompatibilityChain_returns hrank (by omega)
        intro i hget
        have hlower : (st.graph.lower rank i).card < st.graph.images.length :=
          lower_card_lt_length (mem_of_get hget).1
        omega
      split
      next hnone => exact absurd hnone hgen
      · nofun
      next hok =>
        apply ih
        rw [(generateV1CompatibilityChain_outcome hok).grown.graph]
        exact ⟨rank, hrank⟩
    · exact ih h

end Generation

/-! ## The descriptors before the ids are chosen -/

/-- A new descriptor has its strong id, no parent, and the id of its history entry. -/
structure Describes (c : Codec V C D) (l : ManifestLayer V D) (d : Descriptor V C D) : Prop where
  id_eq : d.id = c.hex d.strongID
  parent_eq : d.parent = []
  compatibility : ∃ i, c.newImgJSON l.v1Compatibility = some i ∧ i.id = d.compatibilityID

section Descriptors

variable {c : Codec V C D} {m : List (ManifestLayer V D)} {imgs : List (Descriptor V C D)}

theorem newImages_describes (h : newImages c m = .ok imgs) : List.Forall₂ (Describes c) m imgs := by
  induction m generalizing imgs with
  | nil =>
    cases h
    exact .nil
  | cons l ls ih =>
    rw [newImages] at h
    split at h
    · cases h
    next below hbelow =>
      split at h
      · cases h
      next img himg =>
        cases h
        refine .cons ?_ (ih hbelow)
        unfold newContentAddressableImage at himg
        split at himg
        · cases himg
        split at himg
        · cases himg
        next i hi =>
          cases himg
          exact ⟨rfl, rfl, i, hi, rfl⟩

theorem generable_iff {st : Store V D} (h : List.Forall₂ (Describes c) m imgs) :
    Generable c st m ↔ ∀ d ∈ imgs, st.exists_ d.compatibilityID → ∃ v, Generates c st d.compatibilityID v := by
  unfold Generable
  induction h with
  | nil => simp
  | cons hd _ ih =>
    obtain ⟨i, hi, hid⟩ := hd.compatibility
    rw [List.forall_mem_cons, List.forall_mem_cons, ih, hi, ← hid]
    simp

end Descriptors

/-! ## The chosen ids -/

section Choice

variable [DecidableEq D] {c : Codec V C D} {st : Store V D} {imgs imgs' : List (Descriptor V C D)}

variable {id : Str} {k : Nat}

theorem checked_cons {img : Descriptor V C D} :
    Checked c st (img :: imgs) ↔
      (st.exists_ img.id = false ∨ validateImageInGraph c st img.id (img :: imgs) 0 = .ok ()) ∧
        Checked c st imgs := by
  constructor
  · intro h
    refine ⟨h 0 img rfl, fun i d hd => ?_⟩
    exact h (i + 1) d hd
  · rintro ⟨hhead, htail⟩ i d hd
    cases i with
    | zero =>
      cases hd
      exact hhead
    | succ i => exact htail i d hd

/-- The next id is taken if it is free or checked. -/
theorem tryNextID_eq (c : Codec V C D) (st : Store V D) (imgs : List (Descriptor V C D)) (id : Str) :
    (tryNextID c st imgs id = .inr (c.nextID id) ∧
      (st.exists_ (c.nextID id) = false ∨ validateImageInGraph c st (c.nextID id) imgs 0 = .ok ())) ∨
    (tryNextID c st imgs id = .inl (c.nextID id) ∧ st.exists_ (c.nextID id)) := by
  unfold tryNextID
  split
  next hexists =>
    split
    next hok => exact .inl ⟨rfl, .inr hok⟩
    · exact .inr ⟨rfl, hexists⟩
  next hexists => exact .inl ⟨rfl, .inl (by simpa using hexists)⟩

/-- The probing leaves with an id that is free or checked. -/
theorem run_tryNextID {id' : Str} (h : run (tryNextID c st imgs) k id = some id') :
    st.exists_ id' = false ∨ validateImageInGraph c st id' imgs 0 = .ok () := by
  refine run_post (I := fun _ => True)
    (fun id' => st.exists_ id' = false ∨ validateImageInGraph c st id' imgs 0 = .ok ())
    (fun _ _ _ _ => trivial) (fun id id' _ hleave => ?_) trivial h
  rcases tryNextID_eq c st imgs id with ⟨hnext, hfree⟩ | ⟨hnext, -⟩
  · cases hnext.symm.trans hleave
    exact hfree
  · cases hnext.symm.trans hleave

/-- The probing ends at the latest with the first hash that is not in the graph. -/
theorem run_tryNextID_returns {n : Nat} (h : st.exists_ (c.nextID^[n + 1] id) = false)
    (hk : n < k) : ∃ id', run (tryNextID c st imgs) k id = some id' := by
  induction n generalizing k id with
  | zero =>
    obtain ⟨k, rfl⟩ : ∃ j, k = j + 1 := ⟨k - 1, by omega⟩
    rcases tryNextID_eq c st imgs id with ⟨hnext, -⟩ | ⟨-, hexists⟩
    · exact ⟨_, run_leave hnext⟩
    · cases h.symm.trans hexists
  | succ n ih =>
    obtain ⟨k, rfl⟩ : ∃ j, k = j + 1 := ⟨k - 1, by omega⟩
    rcases tryNextID_eq c st imgs id with ⟨hnext, -⟩ | ⟨hnext, -⟩
    · exact ⟨_, run_leave hnext⟩
    · rw [run_continue hnext]
      exact ih h (by omega)

theorem chooseIDs_checked {reuse : Bool} (h : chooseIDs c st k imgs = some (imgs', reuse)) :
    Checked c st imgs' := by
  induction imgs generalizing imgs' reuse with
  | nil =>
    cases h
    intro i d hd
    simp at hd
  | cons img rest ih =>
    rw [chooseIDs] at h
    split at h
    · cases h
    next below continueReuse hbelow =>
      have hrest := ih hbelow
      split at h
      · split at h
        next hok =>
          cases h
          exact checked_cons.mpr ⟨.inr hok, hrest⟩
        · split at h
          · cases h
          next id hrun =>
            cases h
            exact checked_cons.mpr ⟨run_tryNextID hrun, hrest⟩
      next hexists =>
        -- the strong id is free, and stays unless the compatibility id is taken
        have hfree := checked_cons.mpr ⟨.inl (by simpa using hexists), hrest⟩
        split at h
        · split at h
          next hok =>
            cases h
            exact checked_cons.mpr ⟨.inr hok, hrest⟩
          · cases h
            exact hfree
        · cases h
          exact hfree

theorem chooseIDs_returns (h : ∀ id, ∃ n, st.exists_ (c.nextID^[n + 1] id) = false)
    (imgs : List (Descriptor V C D)) : ∃ N, ∀ k, N ≤ k → chooseIDs c st k imgs ≠ none := by
  induction imgs with
  | nil => exact ⟨0, nofun⟩
  | cons img rest ih =>
    obtain ⟨N, hN⟩ := ih
    obtain ⟨n, hn⟩ := h img.id
    refine ⟨max N (n + 1), fun k hk => ?_⟩
    rw [chooseIDs]
    split
    next hnone => exact absurd hnone (hN k (by omega))
    next below continueReuse _ =>
      split
      · split
        · nofun
        obtain ⟨id', hid'⟩ : ∃ id', run (tryNextID c st (img :: below)) k img.id = some id' :=
          run_tryNextID_returns hn (by omega)
        rw [hid']
        nofun
      · split
        · split <;> nofun
        · nofun

omit [DecidableEq D] in
theorem fixParents_getElem? (imgs : List (Descriptor V C D)) (i : Nat) :
    (fixParents imgs)[i]? = imgs[i]?.map fun d =>
      { d with parent := (imgs[i + 1]?.map Descriptor.id).getD [] } := by
  induction imgs generalizing i with
  | nil => rfl
  | cons img rest ih =>
    cases i with
    | zero => simp [fixParents, List.head?_eq_getElem?]
    | succ i =>
      rw [fixParents, List.getElem?_cons_succ, List.getElem?_cons_succ]
      exact ih i

theorem fixParents_valid (h : Checked c st imgs) : ValidChain c st (fixParents imgs) := by
  constructor
  · intro i d hd
    rw [fixParents_getElem?, map_eq_some_iff] at hd
    obtain ⟨d₀, -, rfl⟩ := hd
    rw [fixParents_getElem?, Option.map_map]
    rfl
  · intro i d hd
    rw [fixParents_getElem?, map_eq_some_iff] at hd
    obtain ⟨d₀, hd₀, rfl⟩ := hd
    have hsame : validateImageInGraph c st d₀.id (fixParents imgs) i = validateImageInGraph c st d₀.id imgs i := by
      simp only [validateImageInGraph, fixParents_getElem?, Option.map_map]
      rfl
    rw [hsame]
    exact h i d₀ hd₀

end Choice

/-! ## The ids of a manifest -/

section Manifest

variable [DecidableEq D]

/-- Without parents only a single image is chained. -/
theorem validChain_unfixed {c : Codec V C D} {st : Store V D} {m : List (ManifestLayer V D)}
    {imgs : List (Descriptor V C D)} (h : List.Forall₂ (Describes c) m imgs) (hne : m ≠ []) :
    ValidChain c st imgs ↔ m.length = 1 ∧ Checked c st imgs := by
  cases h with
  | nil => exact absurd rfl hne
  | @cons l d ls ds hd hds =>
    cases hds with
    | nil =>
      constructor
      · intro hvalid
        exact ⟨rfl, hvalid.checked⟩
      rintro ⟨-, hchecked⟩
      refine ⟨fun i d' hd' => ?_, hchecked⟩
      cases i with
      | zero =>
        cases hd'
        exact hd.parent_eq
      | succ i => cases hd'
    | @cons l' d' ls' ds' hd' =>
      constructor
      · intro hvalid
        have hparent : d.parent = d'.id := hvalid.parents 0 d rfl
        rw [hd.parent_eq, hd'.id_eq] at hparent
        exact absurd hparent.symm (validID_ne_nil (c.hex_valid _))
      · rintro ⟨hlen, -⟩
        simp at hlen

end Manifest

/-- An id of one character 64 times over. -/
def idOfChar (c : Char) : Str := List.replicate 64 c

/-- A codec whose digests say whether there is a parent. -/
def parentCodec : Codec Image Bool Bool where
  newImgJSON := some
  idOf i := some i.id
  makeImageConfig _ _ parent := some parent.isSome
  strongID config := config
  hex hasParent := if hasParent then idOfChar 'a' else idOfChar 'b'
  nextID _ := idOfChar 'c'
  hex_valid := by decide

/-- A manifest of two images. -/
def twoImages : List (ManifestLayer Image Bool) := [⟨⟨idOfChar '1', idOfChar '2'⟩, true⟩, ⟨⟨idOfChar '2', []⟩, false⟩]

/-- A graph without files other than the images themselves. -/
def bareStore (g : Graph) : Store Image Bool where
  graph := g
  layerDigest _ := none
  v1Config _ := none
  marshal id parent := some ⟨id, parent⟩
  writable _ := true

/-- A graph with the image that `twoImages` has on top, on a parent that the graph has not. -/
def orphanGraph : Graph where
  images := [⟨idOfChar '1', idOfChar '3'⟩]
  nodup := by decide
  ids := by decide

theorem generateAll_orphan : ∃ imgs, newImages parentCodec twoImages = .ok imgs ∧
    generateAll parentCodec imgs (bareStore orphanGraph) ≠ none :=
  ⟨_, rfl, generateAll_returns ⟨fun _ => 0, List.forall_mem_singleton.mpr nofun⟩ _⟩

end DockerEngine.Pull
