import DockerEngine.Images.Load

/-!
# Saving images and loading them again

`TagStore.ImageExport` writes an archive with a directory for each image that is asked for and for each of
their ancestors, and a file `repositories` with the references. `Load` reads it. `load_imageExport` says that a
graph and a tag store with nothing in them then hold the exported images with their ancestors, and the exported
references.

A walk over the parents of an image ends early at an image whose directory is there. This loses nothing since
the directories are closed under parents except for the one that the walk is about to make: `Grown`.

The references have to be such that `SetLoad` takes them, and no repository may bear the id of an image: an
image is looked up by its id, and such a repository would come first.

An archive is written and read back faithfully, and the storage driver takes every image. The tag store's
table is in its file. A walk that does not end within the given number of rounds is an error of the model; what
holds of a successful export holds for every number.
-/

namespace DockerEngine.Images.Export

open Filepath Load List Proc Graph TagStore Prod

/-! ## The model -/

/-- The errors of an export. -/
inductive ExportErr where
  | lookup (e : GetErr)
  /-- The walk over the parents goes on for ever. -/
  | endless
  deriving DecidableEq, Repr

/-- The archive: the directories with the images that their files describe, and `rootRepoMap`. -/
structure Archive where
  dirs : List (Str × Image)
  repositories : Repositories
  deriving DecidableEq

/-- The archive with nothing in it. -/
def Archive.empty : Archive := ⟨[], ⟨[], nodup_nil⟩⟩

section Model

variable (N : Naming) (g : Graph) (t : Repositories)

/-- `exportImage`, for a number of rounds. -/
def exportImage : Nat → Str → Proc Archive ExportErr Unit
  | 0, _ => fail .endless
  | rounds + 1, n => fun a =>
    if n = [] then (.ok (), a)
    else
      let img := t.lookupImage N g n
      -- the directory is there already
      if n ∈ a.dirs.map fst then (.ok (), a)
      else
        match img with
        -- the error comes from `ImageTarLayer`, which looks the image up again
        | .error e => (.error (.lookup e), a)
        | .ok img => exportImage rounds img.parent { a with dirs := a.dirs ++ [(n, img)] }

/-- `addKey`. -/
def addKey (name tag id : Str) : Proc Archive ExportErr Unit := fun a =>
  (.ok (), { a with repositories := a.repositories.set ⟨name, tag, id⟩ })

/-- One reference of a repository. -/
def exportRef (rounds : Nat) (name : Str) (r : Ref) : Proc Archive ExportErr Unit := do
  addKey name r.tag r.id
  exportImage N g t rounds r.id

/-- One name of an export: a repository, or an image. -/
def exportName (rounds : Nat) (name : Str) : Proc Archive ExportErr Unit :=
  let name := N.normalizeLocalName name
  if t.exists_ name then
    (t.refs.filter fun r => r.repo = name).forM (exportRef N g t rounds name)
  else
    match t.lookupImage N g name with
    | .error e => fail (.lookup e)
    | .ok img => do
      let repoTag := parseRepositoryTag name
      if repoTag.2 = [] then pure () else addKey repoTag.1 repoTag.2 img.id
      exportImage N g t rounds img.id

/-- `ImageExport`. -/
def imageExport (rounds : Nat) (names : List Str) : Proc Archive ExportErr Unit :=
  names.forM (exportName N g t rounds)

/-- The images that a name stands for: those of the repository, or the one that is looked up. -/
def Names (name : Str) (e : Image) : Prop :=
  (∃ r ∈ t.refs, r.repo = N.normalizeLocalName name ∧ e ∈ g.images ∧ e.id = r.id) ∨
    (t.exists_ (N.normalizeLocalName name) = false ∧ t.lookupImage N g (N.normalizeLocalName name) = .ok e)

/-- The references that a name stands for, with the repository as it was asked for. -/
def Refers (name : Str) (r : Ref) : Prop :=
  (r ∈ t.refs ∧ r.repo = N.normalizeLocalName name) ∨
    (t.exists_ (N.normalizeLocalName name) = false ∧ r.repo = (parseRepositoryTag (N.normalizeLocalName name)).1 ∧
      r.tag = (parseRepositoryTag (N.normalizeLocalName name)).2 ∧ r.tag ≠ [] ∧
      ∃ e, t.lookupImage N g (N.normalizeLocalName name) = .ok e ∧ r.id = e.id)

end Model

/-- The images form a parent-closed forest, the references lead to images, and the repositories have local
names. -/
structure Storable (N : Naming) (g : Graph) (t : Repositories) : Prop where
  forest : g.Forest
  closed : ∀ i ∈ g.images, i.parent = [] ∨ ∃ p ∈ g.images, p.id = i.parent
  leads : ∀ r ∈ t.refs, ∃ i ∈ g.images, i.id = r.id
  fixed : ∀ r ∈ t.refs, N.normalizeLocalName r.repo = r.repo

/-- No repository is without a name, called `scratch` or called like an image, and behind it stands what `SetLoad`
takes for a tag. -/
structure Accepted (g : Graph) (t : Repositories) : Prop where
  named : ∀ r ∈ t.refs, r.repo ≠ [] ∧ r.repo ≠ "scratch".toList
  tagged : ∀ r ∈ t.refs, refusedTag r.tag = none
  unshadowed : ∀ r ∈ t.refs, ∀ i ∈ g.images, r.repo ≠ i.id

/-- The archive was unpacked, and the storage driver and the file of the tag store are willing. -/
structure Unpacks (a : Archive) (w : Unpacked) : Prop where
  dirs : w.dirs.Perm (a.dirs.map fst)
  json : ∀ d ∈ a.dirs, w.disk.node (w.jsonPath d.1) = some (.file (some d.2))
  layer : ∀ d ∈ a.dirs, w.disk.node (w.layerPath d.1) ≠ none
  missing : a.repositories.refs = [] → w.repositories = .missing
  entries : a.repositories.refs ≠ [] → ∃ refs, w.repositories = .entries refs ∧ refs.Perm a.repositories.refs
  accepts : ∀ g img, w.accepts g img = true
  writes : w.writes = true

/-! ## The walk over the parents -/

variable {rounds : Nat}

section Walk

variable {N : Naming} {g : Graph} {t : Repositories} {a a' : Archive} {i : Image}

/-- The directories are called by the ids of their images. -/
def Sound (g : Graph) (a : Archive) : Prop := ∀ d ∈ a.dirs, d.1 = d.2.id ∧ d.2 ∈ g.images

/-- The parents have directories, except for those of the given id. -/
def ClosedBut (a : Archive) (id : Str) : Prop :=
  ∀ d ∈ a.dirs, d.2.parent = [] ∨ d.2.parent = id ∨ d.2.parent ∈ a.dirs.map fst

/-- The archive with an image and what of its ancestors was not there. -/
structure Grown (g : Graph) (a : Archive) (i : Image) (a' : Archive) : Prop where
  sound : Sound g a'
  closed : ClosedBut a' []
  keeps : ∀ d ∈ a.dirs, d ∈ a'.dirs
  has : (i.id, i) ∈ a'.dirs
  ancestors : ∀ d ∈ a'.dirs, d ∈ a.dirs ∨ g.Ancestor i d.2
  repositories : a'.repositories = a.repositories

theorem Sound.mem (h : Sound g a) (hi : i ∈ g.images) (hmem : i.id ∈ a.dirs.map fst) : (i.id, i) ∈ a.dirs := by
  obtain ⟨⟨n, j⟩, hd, hn⟩ := mem_map.mp hmem
  obtain ⟨hname, hj⟩ := h _ hd
  obtain rfl : j = i := g.eq_of_id hj hi (hname.symm.trans hn)
  rwa [show n = j.id from hname] at hd

theorem Sound.snoc (h : Sound g a) (hi : i ∈ g.images) : Sound g { a with dirs := a.dirs ++ [(i.id, i)] } :=
  forall_mem_append.mpr ⟨h, forall_mem_singleton.mpr ⟨rfl, hi⟩⟩

theorem ClosedBut.snoc (h : ClosedBut a i.id) : ClosedBut { a with dirs := a.dirs ++ [(i.id, i)] } i.parent := by
  refine forall_mem_append.mpr ⟨fun d hd => ?_, forall_mem_singleton.mpr (.inr (.inl rfl))⟩
  rcases h d hd with hnil | hid | hmem
  · exact .inl hnil
  · refine .inr (.inr ?_)
    rw [hid]
    simp
  · refine .inr (.inr ?_)
    rw [map_append]
    exact mem_append_left _ hmem

/-- What an export of an image leaves. -/
theorem exportImage_grown (hS : Storable N g t) (hshadow : ∀ r ∈ t.refs, ∀ i ∈ g.images, r.repo ≠ i.id) (hi : i ∈ g.images) (hs : Sound g a) (hc : ClosedBut a i.id)
    (hrun : exportImage N g t rounds i.id a = (.ok (), a')) : Grown g a i a' := by
  induction rounds generalizing i a with
  | zero => cases hrun
  | succ rounds ih =>
    simp only [exportImage, if_neg (validID_ne_nil (g.ids i hi))] at hrun
    split at hrun
    next hmem =>
      have hclosed : ClosedBut a [] := by
        intro d hd
        rcases hc d hd with hnil | hid | hin
        · exact .inl hnil
        · exact .inr (.inr (hid ▸ hmem))
        · exact .inr (.inr hin)
      cases hrun
      exact ⟨hs, hclosed, fun d hd => hd, hs.mem hi hmem, fun d => .inl, rfl⟩
    next hnew =>
      have hlookup : t.lookupImage N g i.id = .ok i :=
        Repositories.lookupImage_id hi fun r hr hrepo => absurd hrepo (hshadow r hr i hi)
      rw [hlookup] at hrun
      dsimp only at hrun
      rcases hS.closed i hi with hnil | ⟨p, hp, hpid⟩
      · -- the walk ends at an image without a parent
        cases rounds with
        | zero => cases hrun
        | succ rounds =>
          simp only [exportImage, if_pos hnil] at hrun
          cases hrun
          refine ⟨hs.snoc hi, ?_, fun d => mem_append_left _, by simp, ?_, rfl⟩
          · rw [← hnil]
            exact hc.snoc
          · exact forall_mem_append.mpr ⟨fun d => .inl, forall_mem_singleton.mpr (.inr (.refl i))⟩
      · rw [← hpid] at hrun
        have hgrown := ih hp (hs.snoc hi) (hpid ▸ hc.snoc) hrun
        have hparent : g.getParent i = .ok (some p) :=
          (getParent_eq_some (hS.forest.parents i hi)).mpr ⟨hpid.symm, hp⟩
        refine ⟨hgrown.sound, hgrown.closed, (forall_mem_append.mp hgrown.keeps).1,
          hgrown.keeps _ (by simp), fun d hd => ?_, hgrown.repositories⟩
        rcases hgrown.ancestors d hd with hd | hanc
        · rcases mem_append.mp hd with hd | hd
          · exact .inl hd
          · rw [mem_singleton.mp hd]
            exact .inr (.refl i)
        · exact .inr (.step hparent hanc)

/-- A closed archive has the ancestors of its images. -/
theorem ancestor_mem (hS : Storable N g t) (hs : Sound g a) (hc : ClosedBut a []) {j : Image}
    (hanc : g.Ancestor i j) (hi : (i.id, i) ∈ a.dirs) : (j.id, j) ∈ a.dirs := by
  induction hanc with
  | refl => exact hi
  | @step i p j hparent _ ih =>
    have himg := (hs _ hi).2
    obtain ⟨hid, hp⟩ := (getParent_eq_some (hS.forest.parents i himg)).mp hparent
    have hne : i.parent ≠ [] := hid ▸ validID_ne_nil (g.ids p hp)
    rcases hc _ hi with hnil | hnil | hmem
    · exact absurd hnil hne
    · exact absurd hnil hne
    · exact ih (hs.mem hp (hid ▸ hmem))

end Walk

/-! ## What an export collects -/

section Collect

variable {N : Naming} {g : Graph} {t : Repositories} {a a' : Archive} {E : Image → Prop} {R : Ref → Prop}

/-- The reference leads to the image that is found under it. -/
def Faithful (N : Naming) (g : Graph) (t : Repositories) (r : Ref) : Prop :=
  ∃ i, t.getImage N g r.repo r.tag = .ok (some i) ∧ i.id = r.id

/-- The archive has the images with their ancestors, and the references. -/
structure Collected (N : Naming) (g : Graph) (t : Repositories) (E : Image → Prop) (R : Ref → Prop)
    (a : Archive) : Prop where
  sound : Sound g a
  closed : ClosedBut a []
  images : ∀ i, (i.id, i) ∈ a.dirs ↔ ∃ e, E e ∧ g.Ancestor e i
  refs : ∀ r, r ∈ a.repositories.refs ↔ R r
  faithful : ∀ r, R r → Faithful N g t r

theorem Collected.congr {E' : Image → Prop} {R' : Ref → Prop} (h : Collected N g t E R a)
    (hE : ∀ e, E e ↔ E' e) (hR : ∀ r, R r ↔ R' r) : Collected N g t E' R' a := by
  refine ⟨h.sound, h.closed, fun i => ?_, fun r => ?_, fun r hr => h.faithful r ((hR r).mpr hr)⟩
  · rw [h.images]
    exact exists_congr fun e => and_congr_left fun _ => hE e
  · rw [h.refs, hR]

theorem collected_empty : Collected N g t (fun _ => False) (fun _ => False) .empty :=
  ⟨nofun, nofun, fun _ => ⟨nofun, fun ⟨_, h, _⟩ => h.elim⟩, fun _ => ⟨nofun, False.elim⟩, fun _ h => h.elim⟩

theorem Collected.withImage (h : Collected N g t E R a) (hS : Storable N g t)
    (hshadow : ∀ r ∈ t.refs, ∀ i ∈ g.images, r.repo ≠ i.id) {i : Image} (hi : i ∈ g.images)
    (hrun : exportImage N g t rounds i.id a = (.ok (), a')) :
    Collected N g t (fun e => E e ∨ e = i) R a' := by
  have hbut : ClosedBut a i.id := by
    intro d hd
    rcases h.closed d hd with hnil | hnil | hmem
    · exact .inl hnil
    · exact .inl hnil
    · exact .inr (.inr hmem)
  have hgrown := exportImage_grown hS hshadow hi h.sound hbut hrun
  refine ⟨hgrown.sound, hgrown.closed, fun j => ⟨fun hj => ?_, ?_⟩, ?_, h.faithful⟩
  · rcases hgrown.ancestors _ hj with hj | hanc
    · obtain ⟨e, he, hanc⟩ := (h.images j).mp hj
      exact ⟨e, .inl he, hanc⟩
    · exact ⟨i, .inr rfl, hanc⟩
  · rintro ⟨e, he | rfl, hanc⟩
    · exact hgrown.keeps _ ((h.images j).mpr ⟨e, he, hanc⟩)
    · exact ancestor_mem hS hgrown.sound hgrown.closed hanc hgrown.has
  · rw [hgrown.repositories]
    exact h.refs

variable {name : Str} {r : Ref}

/-- References with the same name and tag are one if they are faithful. -/
theorem Faithful.unique {r' : Ref} (h : Faithful N g t r) (h' : Faithful N g t r')
    (hrepo : N.normalizeLocalName r.repo = N.normalizeLocalName r'.repo) (htag : r.tag = r'.tag) :
    r.id = r'.id := by
  obtain ⟨i, hget, hid⟩ := h
  obtain ⟨i', hget', hid'⟩ := h'
  have hsame : t.getImage N g r.repo r.tag = t.getImage N g r'.repo r'.tag := by
    unfold Repositories.getImage
    rw [hrepo, htag]
  rw [hsame, hget'] at hget
  cases hget
  rw [← hid, hid']

theorem Collected.withKey (h : Collected N g t E R a) (hr : Faithful N g t r) :
    Collected N g t E (fun r' => R r' ∨ r' = r)
      { a with repositories := a.repositories.set r } := by
  refine ⟨h.sound, h.closed, h.images, fun r' => ?_, ?_⟩
  · rw [Repositories.mem_set_of_unique, h.refs]
    intro r' hr' hrepo htag
    exact Ref.ext hrepo htag ((h.faithful r' ((h.refs r').mp hr')).unique hr (by rw [hrepo]) htag)
  · rintro r' (hR | rfl)
    · exact h.faithful r' hR
    · exact hr

/-- A reference of the table is faithful. -/
theorem faithful_of_mem (hS : Storable N g t) (hr : r ∈ t.refs) : Faithful N g t r := by
  obtain ⟨i, hi, hid⟩ := hS.leads r hr
  refine ⟨i, ?_, hid⟩
  unfold Repositories.getImage
  rw [hS.fixed r hr]
  dsimp only
  rw [find?_of_key t.nodup hr (by simp)]
  dsimp only
  rw [← hid, get_id hi]
  rfl

/-- A name with a tag is found in its repository. -/
theorem faithful_of_lookup {e : Image} (h : t.lookupImage N g name = .ok e)
    (htag : (parseRepositoryTag name).2 ≠ []) :
    Faithful N g t ⟨(parseRepositoryTag name).1, (parseRepositoryTag name).2, e.id⟩ := by
  refine ⟨e, ?_, rfl⟩
  unfold Repositories.lookupImage Repositories.orDefault at h
  rw [if_neg htag] at h
  split at h
  · cases h
  next i hget =>
    cases h
    exact hget
  · -- an id has no tag
    obtain ⟨he, hpre⟩ := mem_of_get h
    have hhex : ∀ c, isHex c = false → c ∉ name := fun c hc hmem =>
      validID_not_mem (g.ids e he) hc (hpre.subset hmem)
    have hat : '@' ∉ name := hhex '@' (by decide)
    have hcolon : ':' ∉ name := hhex ':' (by decide)
    rw [parseRepositoryTag, if_neg (by simpa using hat), if_neg (by simpa using hcolon)] at htag
    exact absurd rfl htag

section

variable (hS : Storable N g t) (hshadow : ∀ r ∈ t.refs, ∀ i ∈ g.images, r.repo ≠ i.id)
include hS hshadow

/-- The references of a repository are exported one after the other. -/
theorem Collected.withRefs {refs : List Ref} (hrefs : ∀ r ∈ refs, r ∈ t.refs ∧ r.repo = name)
    (h : Collected N g t E R a)
    (hrun : refs.forM (exportRef N g t rounds name) a = (.ok (), a')) :
    Collected N g t (fun e => E e ∨ ∃ r ∈ refs, e ∈ g.images ∧ e.id = r.id) (fun r => R r ∨ r ∈ refs) a' := by
  induction refs generalizing a E R with
  | nil =>
    cases hrun
    exact h.congr (by simp) (by simp)
  | cons r refs ih =>
    obtain ⟨hr, hrepo⟩ := hrefs r mem_cons_self
    obtain ⟨i, hi, hid⟩ := hS.leads r hr
    have hkey : addKey name r.tag r.id a = (.ok (), { a with repositories := a.repositories.set r }) := by
      subst hrepo
      rfl
    obtain ⟨_, a₁, hexport, hrun⟩ := bind_run_eq_ok hrun
    rw [exportRef, bind_run_ok hkey, ← hid] at hexport
    have hone := (h.withKey (faithful_of_mem hS hr)).withImage hS hshadow hi hexport
    refine (ih (forall_mem_cons.mp hrefs).2 hone hrun).congr (fun e => ?_) fun r' => ?_
    · simp only [mem_cons, exists_eq_or_imp, or_assoc]
      refine or_congr_right (or_congr_left ⟨?_, ?_⟩)
      · rintro rfl
        exact ⟨hi, hid⟩
      · rintro ⟨he, heid⟩
        exact g.eq_of_id he hi (heid.trans hid.symm)
    · simp only [mem_cons, or_assoc]

/-- What one name of an export adds. -/
theorem Collected.withName (h : Collected N g t E R a) (hrun : exportName N g t rounds name a = (.ok (), a')) :
    Collected N g t (fun e => E e ∨ Names N g t name e) (fun r => R r ∨ Refers N g t name r) a' := by
  unfold exportName at hrun
  dsimp only at hrun
  cases hexists : t.exists_ (N.normalizeLocalName name) with
  | true =>
    rw [hexists, if_pos rfl] at hrun
    refine (h.withRefs hS hshadow (fun r hr => ?_) hrun).congr (fun e => ?_) fun r => ?_
    · rw [mem_filter, decide_eq_true_iff] at hr
      exact hr
    · unfold Names
      simp only [hexists, mem_filter, decide_eq_true_iff, Bool.true_eq_false, false_and, or_false, and_assoc]
    · unfold Refers
      simp [hexists]
  | false =>
    have hnone : ∀ r ∈ t.refs, r.repo ≠ N.normalizeLocalName name := by
      intro r hr hrepo
      have hsome := exists_of_mem hr
      rw [hrepo, hexists] at hsome
      cases hsome
    rw [hexists, if_neg (by simp)] at hrun
    cases hlookup : t.lookupImage N g (N.normalizeLocalName name) with
    | error e =>
      rw [hlookup] at hrun
      cases hrun
    | ok img =>
      have hi := Repositories.mem_of_lookupImage hlookup
      have hE : ∀ e, Names N g t name e ↔ e = img := by
        intro e
        unfold Names
        rw [hexists, hlookup]
        constructor
        · rintro (⟨r, hr, hrepo, -⟩ | ⟨-, he⟩)
          · exact absurd hrepo (hnone r hr)
          · cases he
            rfl
        · rintro rfl
          exact .inr ⟨rfl, rfl⟩
      rw [hlookup] at hrun
      dsimp only at hrun
      by_cases htag : (parseRepositoryTag (N.normalizeLocalName name)).2 = []
      · rw [if_pos htag] at hrun
        change exportImage N g t rounds img.id a = _ at hrun
        refine (h.withImage hS hshadow hi hrun).congr (fun e => by rw [hE]) fun r => ?_
        have hno : ¬ Refers N g t name r := by
          rintro (⟨hr, hrepo⟩ | ⟨-, -, hr, hne, -⟩)
          · exact hnone r hr hrepo
          · exact hne (hr.trans htag)
        simp [hno]
      · rw [if_neg htag] at hrun
        change exportImage N g t rounds img.id { a with repositories := a.repositories.set _ } = _ at hrun
        have hone := (h.withKey (faithful_of_lookup hlookup htag)).withImage hS hshadow hi hrun
        refine hone.congr (fun e => by rw [hE]) fun r => or_congr_right ⟨?_, ?_⟩
        · rintro rfl
          exact .inr ⟨hexists, rfl, rfl, htag, img, hlookup, rfl⟩
        rintro (⟨hr, hrepo⟩ | ⟨-, hrepo, hr, -, e, he, hid⟩)
        · exact absurd hrepo (hnone r hr)
        · cases hlookup.symm.trans he
          exact Ref.ext hrepo hr hid

/-- What an export collects. -/
theorem imageExport_collected {names : List Str} (h : Collected N g t E R a)
    (hrun : imageExport N g t rounds names a = (.ok (), a')) :
    Collected N g t (fun e => E e ∨ ∃ name ∈ names, Names N g t name e)
      (fun r => R r ∨ ∃ name ∈ names, Refers N g t name r) a' := by
  induction names generalizing a E R with
  | nil =>
    cases hrun
    exact h.congr (by simp) (by simp)
  | cons name names ih =>
    obtain ⟨_, a₁, hone, hrun⟩ := bind_run_eq_ok hrun
    exact (ih (h.withName hS hshadow hone) hrun).congr (fun e => by simp [or_assoc]) fun r => by simp [or_assoc]

end

end Collect

/-! ## Loading the directories -/

section Directories

variable {N : Naming} {g : Graph} {t : Repositories} {a : Archive} {w : Unpacked} {s s' : LoadState}
  {i : Image}

/-- A state of the load: every image of the graph is from the archive, and there are no references yet. -/
structure Loading (a : Archive) (s : LoadState) : Prop where
  within : ∀ i ∈ s.graph.images, (i.id, i) ∈ a.dirs
  untagged : s.tags.observed.refs = []

theorem Loading.looked (h : Loading a s) (paths : List Str) : Loading a (s.looked paths) :=
  ⟨h.within, by rw [LoadState.looked, observed_fresh]; exact h.untagged⟩

/-- Without references an image is looked up in the graph. -/
theorem lookupImage_untagged (ht : t.refs = []) (name : Str) : t.lookupImage N g name = g.get name := by
  unfold Repositories.lookupImage Repositories.getImage
  rw [ht]
  simp

section

variable (h : Loading a s) (hs : Sound g a)
include h hs

theorem Loading.exists_iff (hi : i ∈ g.images) : s.graph.exists_ i.id ↔ i ∈ s.graph.images := by
  constructor
  · intro hexists
    unfold exists_ at hexists
    split at hexists
    next j hget =>
      obtain ⟨hj, hpre⟩ := mem_of_get hget
      have hj' := (hs _ (h.within j hj)).2
      rwa [g.eq_of_id hi hj' (validID_begins (g.ids i hi) (g.ids j hj') hpre)]
    · cases hexists
  · exact exists_of_mem

section

variable (hw : Unpacks a w) (hd : (i.id, i) ∈ a.dirs)
include hw hd

/-- At the address of an image of the archive there is the image, until it is in the graph. -/
theorem Loading.probe :
    Load.probe N w s.graph s.tags.observed i.id = if i ∈ s.graph.images then .there else .image i := by
  have hi := (hs _ hd).2
  have hexists := h.exists_iff hs hi
  unfold Load.probe
  rw [lookupImage_untagged h.untagged]
  unfold exists_ at hexists
  cases hget : s.graph.get i.id with
  | ok j =>
    rw [hget] at hexists
    rw [if_pos (hexists.mp rfl)]
  | error e =>
    rw [hget] at hexists
    rw [if_neg fun hmem => Bool.false_ne_true (hexists.mpr hmem)]
    obtain ⟨layer, hlayer⟩ := Option.ne_none_iff_exists'.mp (hw.layer _ hd)
    dsimp only at hlayer ⊢
    rw [hw.json _ hd, hlayer]
    simp [g.ids i hi]

/-- An image of the archive is registered. -/
theorem Loading.register :
    ∃ s', registerImage w i s = (.ok (), s') ∧ Loading a s' ∧ s'.pool = s.pool ∧ i ∈ s'.graph.images ∧
      ∀ j ∈ s.graph.images, j ∈ s'.graph.images := by
  have hi := (hs _ hd).2
  have hexists := h.exists_iff hs hi
  unfold registerImage
  rw [dif_pos (g.ids i hi)]
  split
  next hnew =>
    rw [if_pos (hw.accepts _ _)]
    exact ⟨_, rfl, ⟨forall_mem_cons.mpr ⟨hd, h.within⟩, h.untagged⟩, rfl, mem_cons_self,
      fun j => mem_cons_of_mem _⟩
  next hthere =>
    rw [Bool.not_eq_false] at hthere
    exact ⟨s, rfl, h, rfl, hexists.mp hthere, fun j hj => hj⟩

end

end

section

variable (hS : Storable N g t) (hs : Sound g a) (hc : ClosedBut a []) (hw : Unpacks a w)
include hS hs hc hw

/-- An image of the archive is loaded, with its ancestors. What is in the pool is above it. -/
theorem recursiveLoad_ok
    {rank : Str → Nat} (hrank : ∀ i ∈ g.images, ∀ p, g.getParent i = .ok (some p) → rank p.id < rank i.id)
    {n : Nat} (hn : room w s.pool < n) (h : Loading a s) (hd : (i.id, i) ∈ a.dirs)
    (hpool : ∀ id ∈ s.pool, rank i.id < rank id) :
    ∃ s', recursiveLoad N w n i.id s = (.ok (), s') ∧ Loading a s' ∧ s'.pool = s.pool ∧
      i ∈ s'.graph.images ∧ ∀ j ∈ s.graph.images, j ∈ s'.graph.images := by
  induction n generalizing s i with
  | zero => omega
  | succ n ih =>
    have hi := (hs _ hd).2
    have hprobe := @Loading.probe N g a w s i h hs hw hd
    rw [recursiveLoad_succ, hprobe]
    by_cases hmem : i ∈ s.graph.images
    · rw [if_pos hmem]
      exact ⟨_, rfl, h.looked [], rfl, hmem, fun j hj => hj⟩
    rw [if_neg hmem] at hprobe ⊢
    have hnew : i.id ∉ s.pool := fun hin => absurd (hpool _ hin) (lt_irrefl _)
    dsimp only
    rw [if_neg hnew]
    have hentered : Loading a (s.entered (filesOf w i.id) i.id) :=
      ⟨h.within, by rw [LoadState.entered, observed_fresh]; exact h.untagged⟩
    -- the image is registered once its parent is there
    have hregister : ∀ {s₁ : LoadState}, loadOntoParent w i (recursiveLoad N w n i.parent)
        (s.entered (filesOf w i.id) i.id) = registerImage w i s₁ → Loading a s₁ → s₁.pool = i.id :: s.pool →
        (∀ j ∈ s.graph.images, j ∈ s₁.graph.images) →
        ∃ s', (loadOntoParent w i (recursiveLoad N w n i.parent)).andFinally (poolRemove i.id)
          (s.entered (filesOf w i.id) i.id) = (.ok (), s') ∧ Loading a s' ∧ s'.pool = s.pool ∧
          i ∈ s'.graph.images ∧ ∀ j ∈ s.graph.images, j ∈ s'.graph.images := by
      intro s₁ hload h₁ hp₁ hkeeps₁
      obtain ⟨s₂, hrun, h₂, hp₂, hin, hkeeps₂⟩ := h₁.register hs hw hd
      refine ⟨_, pooled_run (hload.trans hrun) (hp₂.trans hp₁) hnew, ⟨h₂.within, h₂.untagged⟩, rfl, hin, ?_⟩
      exact fun j hj => hkeeps₂ j (hkeeps₁ j hj)
    cases hneeds : needs s.graph i with
    | none => exact hregister (loadOntoParent_none hneeds) hentered rfl fun j hj => hj
    | some b =>
      obtain ⟨rfl, hne, -⟩ := needs_eq_some hneeds
      obtain ⟨⟨name, p⟩, hpdir, hname⟩ := mem_map.mp (((hc _ hd).resolve_left hne).resolve_left hne)
      obtain ⟨hpid, hp⟩ := hs _ hpdir
      obtain rfl : name = p.id := hpid
      have hparent : g.getParent i = .ok (some p) :=
        (getParent_eq_some (hS.forest.parents i hi)).mpr ⟨hname.symm, hp⟩
      have hlt := hrank i hi p hparent
      have hroom : room w (s.entered (filesOf w i.id) i.id).pool < n := by
        have hless : room w (i.id :: s.pool) < room w s.pool := room_cons (mem_images hprobe) hnew
        show room w (i.id :: s.pool) < n
        omega
      have habove : ∀ id ∈ (s.entered (filesOf w i.id) i.id).pool, rank p.id < rank id :=
        forall_mem_cons.mpr ⟨hlt, fun id hid => hlt.trans (hpool id hid)⟩
      obtain ⟨s₁, hrun, h₁, hp₁, -, hkeeps⟩ := ih hroom hentered hpdir habove
      rw [show p.id = i.parent from hname] at hrun
      exact hregister (loadOntoParent_ok hneeds hrun) h₁ hp₁ hkeeps

/-- The directories of the archive are loaded one after the other. -/
theorem turns_ok
    {ds : List Str} (hds : ∀ d ∈ ds, d ∈ a.dirs.map fst) (h : Loading a s) (hpool : s.pool = []) :
    ∃ s', ds.forM (recursiveLoad N w (w.disk.images.length + 1)) s = (.ok (), s') ∧ Loading a s' ∧
      (∀ j ∈ s.graph.images, j ∈ s'.graph.images) ∧ ∀ i ∈ g.images, i.id ∈ ds → i ∈ s'.graph.images := by
  obtain ⟨rank, hrank⟩ := hS.forest.acyclic
  induction ds generalizing s with
  | nil => exact ⟨s, rfl, h, fun j hj => hj, nofun⟩
  | cons d ds ih =>
    obtain ⟨⟨name, i⟩, hd, hname⟩ := mem_map.mp (hds d mem_cons_self)
    obtain ⟨hid, hi⟩ := hs _ hd
    obtain rfl : name = i.id := hid
    obtain rfl : i.id = d := hname
    have hroom : room w s.pool < w.disk.images.length + 1 := hpool ▸ room_nil w
    have habove : ∀ id ∈ s.pool, rank i.id < rank id := by
      rw [hpool]
      nofun
    obtain ⟨s₁, hrun, h₁, hp₁, hin, hkeeps₁⟩ := recursiveLoad_ok hS hs hc hw hrank hroom h hd habove
    obtain ⟨s₂, hrest, h₂, hkeeps₂, hall⟩ := ih (forall_mem_cons.mp hds).2 h₁ (hp₁.trans hpool)
    refine ⟨s₂, (forM_cons_ok hrun).trans hrest, h₂, fun j hj => hkeeps₂ j (hkeeps₁ j hj), fun j hj hmem => ?_⟩
    rcases mem_cons.mp hmem with heq | hmem
    · rw [g.eq_of_id hj hi heq]
      exact hkeeps₂ i hin
    · exact hall j hj hmem

end

end Directories

/-! ## Setting the references -/

section References

variable {N : Naming} {g : Graph} {t : Repositories} {w : Unpacked} {s : LoadState}

/-- The reference as it is stored. -/
def localRef (N : Naming) (r : Ref) : Ref := { r with repo := N.normalizeLocalName r.repo }

/-- A faithful reference is one of the table, or its tag is the beginning of the id that one of the table leads
to. -/
theorem Faithful.source {r : Ref} (h : Faithful N g t r) : ∃ r' ∈ t.refs, r'.repo = N.normalizeLocalName r.repo ∧
    (r'.tag = r.tag ∨ (isShortID (truncateID r.tag) ∧ r.tag <+: r'.id)) := by
  obtain ⟨i, hget, -⟩ := h
  unfold Repositories.getImage at hget
  dsimp only at hget
  split at hget
  next r' hfind =>
    have hr' := find?_some hfind
    rw [decide_eq_true_iff] at hr'
    exact ⟨r', mem_of_find?_eq_some hfind, hr'.1, .inl hr'.2⟩
  next =>
    split at hget
    next hshort =>
      split at hget
      next r' hfind =>
        have hr' := find?_some hfind
        rw [decide_eq_true_iff] at hr'
        exact ⟨r', mem_of_find?_eq_some hfind, hr'.1, .inr ⟨hshort, hr'.2⟩⟩
      · cases hget
    · cases hget

/-- The beginning of an id can be a tag. -/
theorem validTagName_of_begins {tag id : Str} (hid : validID id) (hpre : tag <+: id) (hne : tag ≠ []) :
    validTagName tag := by
  have hlen : tag.length ≤ 64 := validID_length hid ▸ hpre.length_le
  have hhex : ∀ c ∈ tag, isWord c := by
    intro c hc
    have hall : id.all isHex := by
      simp only [validID, Bool.and_eq_true] at hid
      exact hid.2
    have hword : c.isAlphanum := isAlphanum_of_isHex (all_eq_true.mp hall c (hpre.subset hc))
    simp [isWord, hword]
  cases tag with
  | nil => exact absurd rfl hne
  | cons c cs =>
    rw [length_cons] at hlen
    unfold validTagName
    simp only [Bool.and_eq_true, decide_eq_true_eq]
    refine ⟨⟨hhex c mem_cons_self, by omega⟩, all_eq_true.mpr fun x hx => ?_⟩
    simp [hhex x (mem_cons_of_mem _ hx)]

/-- What `SetLoad` asks of a reference holds for one that was exported. -/
structure Settable (N : Naming) (s : LoadState) (r : Ref) : Prop where
  image : ∃ i ∈ s.graph.images, i.id = r.id
  named : r.repo ≠ [] ∧ r.repo ≠ "scratch".toList
  tagged : refusedTag r.tag = none
  unshadowed : ∀ i ∈ s.graph.images, N.normalizeLocalName r.repo ≠ i.id

/-- The references of an archive are set one after the other. -/
theorem setTags_ok (hw : w.writes) {refs : List Ref} (hset : ∀ r ∈ refs, Settable N s r)
    (hold : ∀ r ∈ s.tags.observed.refs, ∀ i ∈ s.graph.images, r.repo ≠ i.id) {K : Ref → Prop}
    (hK : ∀ r r', K r → K r' → r.repo = r'.repo → r.tag = r'.tag → r = r')
    (hnew : ∀ r ∈ refs, K (localRef N r)) (hkept : ∀ r ∈ s.tags.observed.refs, K r) :
    ∃ s', refs.forM (setTag N w) s = (.ok (), s') ∧ s'.graph = s.graph ∧
      ∀ r, r ∈ s'.tags.observed.refs ↔ r ∈ s.tags.observed.refs ∨ ∃ r' ∈ refs, r = localRef N r' := by
  induction refs generalizing s with
  | nil => exact ⟨s, rfl, rfl, by simp⟩
  | cons r refs ih =>
    obtain ⟨⟨i, hi, hid⟩, hnamed, htag, hunshadowed⟩ := hset r mem_cons_self
    have hfound : s.tags.observed.lookupImage N s.graph r.id = .ok i := by
      rw [← hid]
      exact Repositories.lookupImage_id hi fun r' hr' hrepo => absurd hrepo (hold r' hr' i hi)
    have hload : setLoad N s.graph w.writes r.repo r.tag r.id true s.tags =
        (.ok (), ⟨s.tags.observed.set (localRef N r), s.tags.observed.set (localRef N r)⟩) := by
      have hne : r.tag ≠ [] := by
        intro h
        rw [h] at htag
        exact absurd htag (by decide)
      rw [hw, setLoad, Repositories.orDefault, if_neg hne, htag]
      refine (setRef_run hfound hnamed rfl true).trans ?_
      rw [hid]
      rfl
    have hrun := setTag_run hload
    have hseen : ∀ r', r' ∈ (observed ⟨s.tags.observed.set (localRef N r),
        s.tags.observed.set (localRef N r)⟩).refs ↔ r' ∈ s.tags.observed.refs ∨ r' = localRef N r := by
      intro r'
      rw [mem_observed_same, Repositories.mem_set_of_unique]
      exact fun r' hr' => hK r' _ (hkept r' hr') (hnew r mem_cons_self)
    obtain ⟨s', hrest, hgraph, hrefs⟩ := @ih { s with tags := ⟨s.tags.observed.set (localRef N r),
        s.tags.observed.set (localRef N r)⟩ }
      (fun r' hr' => { hset r' (mem_cons_of_mem _ hr') with })
      (fun r' hr' i hi => ((hseen r').mp hr').elim (fun h => hold r' h i hi) fun h => h ▸ hunshadowed i hi)
      (forall_mem_cons.mp hnew).2
      (fun r' hr' => ((hseen r').mp hr').elim (hkept r') fun h => h ▸ hnew r mem_cons_self)
    refine ⟨s', (forM_cons_ok hrun).trans hrest, hgraph, fun r' => ?_⟩
    rw [hrefs, hseen]
    simp only [mem_cons, exists_eq_or_imp, or_assoc]

/-- A reference that was exported can be set where its image is loaded. -/
theorem settable_of_faithful (hS : Storable registryNaming g t) (hA : Accepted g t) {r : Ref}
    (hr : Faithful registryNaming g t r) (himage : ∃ i ∈ s.graph.images, i.id = r.id)
    (hwithin : ∀ i ∈ s.graph.images, i ∈ g.images) : Settable registryNaming s r := by
  obtain ⟨r', hr', hrepo, htag⟩ := hr.source
  obtain ⟨hne, hscratch⟩ := hA.named r' hr'
  refine ⟨himage, ⟨?_, ?_⟩, ?_, fun i hi => ?_⟩
  · intro hnil
    rw [hnil] at hrepo
    exact hne hrepo
  · intro heq
    rw [heq] at hrepo
    exact hscratch (hrepo.trans (by decide))
  · rcases htag with htag | ⟨hshort, hpre⟩
    · rw [← htag]
      exact hA.tagged r' hr'
    obtain ⟨i, hi, hid⟩ := hS.leads r' hr'
    have hnil : r.tag ≠ [] := by
      intro hnil
      rw [hnil] at hshort
      revert hshort
      decide
    rw [refusedTag, validTagName_of_begins (hid ▸ g.ids i hi) hpre hnil]
    rfl
  · rw [← hrepo]
    exact hA.unshadowed r' hr' i (hwithin i hi)

end References

/-- **An export is loaded again**: into a graph and a tag store with nothing in them come the exported images with
all their ancestors, and the exported references. -/
theorem load_imageExport (g : Graph) (t : Repositories) (hS : Storable registryNaming g t) (hA : Accepted g t)
    (rounds : Nat) (names : List Str) (a : Archive)
    (hrun : imageExport registryNaming g t rounds names .empty = (.ok (), a)) (w : Unpacked) (hw : Unpacks a w) :
    ∃ s, load registryNaming w blank = (.ok (), s) ∧
      (∀ i, i ∈ s.graph.images ↔ ∃ name ∈ names, ∃ e, Names registryNaming g t name e ∧ g.Ancestor e i) ∧
      ∀ r, r ∈ s.tags.observed.refs ↔
        ∃ name ∈ names, ∃ r', Refers registryNaming g t name r' ∧ r = localRef registryNaming r' := by
  have hcollected : Collected registryNaming g t (fun e => ∃ name ∈ names, Names registryNaming g t name e)
      (fun r => ∃ name ∈ names, Refers registryNaming g t name r) a :=
    (imageExport_collected hS hA.unshadowed collected_empty hrun).congr (by simp) (by simp)
  have hblank : Loading a blank := ⟨nofun, rfl⟩
  obtain ⟨s, hturns, hloading, -, hall⟩ := turns_ok hS hcollected.sound hcollected.closed hw
    (fun d => hw.dirs.mem_iff.mp) hblank rfl
  have hgraph : ∀ i, i ∈ s.graph.images ↔ (i.id, i) ∈ a.dirs := by
    intro i
    refine ⟨hloading.within i, fun hd => hall i (hcollected.sound _ hd).2 ?_⟩
    exact hw.dirs.mem_iff.mpr (mem_map.mpr ⟨_, hd, rfl⟩)
  have himages : ∀ i, i ∈ s.graph.images ↔ ∃ name ∈ names, ∃ e, Names registryNaming g t name e ∧
      g.Ancestor e i := by
    intro i
    rw [hgraph, hcollected.images]
    constructor
    · rintro ⟨e, ⟨name, hname, he⟩, hanc⟩
      exact ⟨name, hname, e, he, hanc⟩
    · rintro ⟨name, hname, e, he, hanc⟩
      exact ⟨e, ⟨name, hname, he⟩, hanc⟩
  have hturn : load registryNaming w blank = _ := bind_run_ok hturns
  by_cases hnone : a.repositories.refs = []
  · -- there is no file of references
    rw [hw.missing hnone] at hturn
    refine ⟨s, hturn, himages, fun r => ?_⟩
    rw [hloading.untagged]
    refine ⟨fun h => absurd h not_mem_nil, ?_⟩
    rintro ⟨name, hname, r', hr', -⟩
    have hmem := (hcollected.refs r').mpr ⟨name, hname, hr'⟩
    rw [hnone] at hmem
    cases hmem
  · obtain ⟨refs, hentries, hperm⟩ := hw.entries hnone
    rw [hentries] at hturn
    have hmem : ∀ r, r ∈ refs ↔ ∃ name ∈ names, Refers registryNaming g t name r :=
      fun r => hperm.mem_iff.trans (hcollected.refs r)
    have hfaithful : ∀ r ∈ refs, Faithful registryNaming g t r := fun r hr => hcollected.faithful r ((hmem r).mp hr)
    have hloaded : ∀ r ∈ refs, ∃ i ∈ s.graph.images, i.id = r.id := by
      intro r hr
      obtain ⟨name, hname, ⟨hin, hrepo⟩ | ⟨hexists, -, -, -, e, he, hid⟩⟩ := (hmem r).mp hr
      · obtain ⟨i, hi, hid⟩ := hS.leads r hin
        exact ⟨i, (himages i).mpr ⟨name, hname, i, .inl ⟨r, hin, hrepo, hi, hid⟩, .refl i⟩, hid⟩
      · exact ⟨e, (himages e).mpr ⟨name, hname, e, .inr ⟨hexists, he⟩, .refl e⟩, hid.symm⟩
    have hwithin : ∀ i ∈ s.graph.images, i ∈ g.images := fun i hi => (hcollected.sound _ (hloading.within i hi)).2
    obtain ⟨s', hset, hsame, hrefs⟩ := @setTags_ok registryNaming w s hw.writes refs
      (fun r hr => settable_of_faithful hS hA (hfaithful r hr) (hloaded r hr) hwithin)
      (by rw [hloading.untagged]; exact forall_mem_nil _)
      (fun r => ∃ r', Faithful registryNaming g t r' ∧ r = localRef registryNaming r')
      (by
        rintro _ _ ⟨r, hr, rfl⟩ ⟨r', hr', rfl⟩ hrepo htag
        have hid := hr.unique hr' hrepo htag
        exact Ref.ext hrepo htag hid)
      (fun r hr => ⟨r, hfaithful r hr, rfl⟩)
      (by rw [hloading.untagged]; exact forall_mem_nil _)
    refine ⟨s', hturn.trans hset, fun i => by rw [hsame]; exact himages i, fun r => ?_⟩
    rw [hrefs, hloading.untagged]
    constructor
    · rintro (hfalse | ⟨r', hr', rfl⟩)
      · cases hfalse
      · obtain ⟨name, hname, hr'⟩ := (hmem r').mp hr'
        exact ⟨name, hname, r', hr', rfl⟩
    · rintro ⟨name, hname, r', hr', rfl⟩
      exact .inr ⟨r', (hmem r').mpr ⟨name, hname, hr'⟩, rfl⟩

/-! ### An archive with one image -/

/-- A repository with one image. -/
def oneTag (repo : Str) : Repositories := ⟨[⟨repo, defaultTag, oneID⟩], by simp⟩

/-- The graph with that image. -/
def onlyImage : Graph := ⟨[⟨oneID, []⟩], by decide, by decide⟩

/-- The archive of the repository. -/
def oneArchive (repo : Str) : Archive := ⟨[(oneID, ⟨oneID, []⟩)], oneTag repo⟩

/-- The archive, once it is unpacked. -/
def oneUnpacked (repo : Str) : Unpacked :=
  { oneDirectory [] with repositories := .entries [⟨repo, defaultTag, oneID⟩] }

theorem unpacks_one (repo : Str) : Unpacks (oneArchive repo) (oneUnpacked repo) where
  dirs := .refl _
  json := by
    intro d hd
    obtain rfl := mem_singleton.mp hd
    exact (by decide +kernel : (oneDirectory []).disk.node ((oneDirectory []).jsonPath oneID) =
      some (.file (some ⟨oneID, []⟩)))
  layer := by
    intro d hd
    obtain rfl := mem_singleton.mp hd
    exact (by decide +kernel : (oneDirectory []).disk.node ((oneDirectory []).layerPath oneID) ≠ none)
  missing := nofun
  entries := fun _ => ⟨_, rfl, .refl _⟩
  accepts := fun _ _ => rfl
  writes := rfl

theorem storable_one {repo : Str} (h : registryNaming.normalizeLocalName repo = repo) :
    Storable registryNaming onlyImage (oneTag repo) where
  forest := by
    refine ⟨by decide, fun _ => 0, fun i hi p hp => ?_⟩
    obtain rfl := mem_singleton.mp hi
    cases hp
  closed := fun i hi => .inl (by rw [mem_singleton.mp hi])
  leads := fun r hr => ⟨_, mem_singleton_self _, by rw [mem_singleton.mp hr]⟩
  fixed := fun r hr => by
    rw [mem_singleton.mp hr]
    exact h

theorem load_imageExport_web : ∃ s, load registryNaming (oneUnpacked "web".toList) blank = (.ok (), s) ∧
    ⟨oneID, []⟩ ∈ s.graph.images ∧ ⟨"web".toList, defaultTag, oneID⟩ ∈ s.tags.observed.refs := by
  have hrun : imageExport registryNaming onlyImage (oneTag "web".toList) 2 ["web".toList] .empty =
      (.ok (), oneArchive "web".toList) := by
    decide +kernel
  have haccepted : Accepted onlyImage (oneTag "web".toList) := by
    refine ⟨?_, ?_, ?_⟩
    all_goals
      intro r hr
      rw [mem_singleton.mp hr]
      decide
  obtain ⟨s, hload, himages, hrefs⟩ := load_imageExport onlyImage (oneTag "web".toList)
    (storable_one (by decide)) haccepted 2 ["web".toList] (oneArchive "web".toList) hrun
    (oneUnpacked "web".toList) (unpacks_one _)
  refine ⟨s, hload, (himages _).mpr ⟨_, mem_singleton_self _, _, ?_, .refl _⟩,
    (hrefs _).mpr ⟨_, mem_singleton_self _, ⟨"web".toList, defaultTag, oneID⟩, ?_, rfl⟩⟩
  · exact .inl ⟨_, mem_singleton_self _, by decide, mem_singleton_self _, rfl⟩
  · exact .inl ⟨mem_singleton_self _, by decide⟩

/-- A repository called `scratch` is exported, and refused by the load. -/
theorem load_scratch :
    Storable registryNaming onlyImage (oneTag "scratch".toList) ∧
      imageExport registryNaming onlyImage (oneTag "scratch".toList) 2 ["scratch".toList] .empty =
        (.ok (), oneArchive "scratch".toList) ∧
      Unpacks (oneArchive "scratch".toList) (oneUnpacked "scratch".toList) ∧
      (load registryNaming (oneUnpacked "scratch".toList) blank).1 = .error (.tag .scratch) :=
  ⟨storable_one (by decide), by decide +kernel, unpacks_one _, by decide +kernel⟩

end DockerEngine.Images.Export
