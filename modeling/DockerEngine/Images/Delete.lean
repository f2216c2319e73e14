import DockerEngine.Images.Tags

/-!
# Deleting an image: `ImageDelete`

`daemon/image_delete.go` removes the references of an image and, when none is left and no other image is
built on it, the image; then it does the same with its parent. `canDeleteImage` is the guard: it refuses
an image that is held by a pull or a build and one that is in the history of the image of a container.

The guard is not always asked. With `-f` an image given by its id is untagged in all repositories at once,
and with more than one of them the question is skipped. Nor does the guard always see what it is asked
about: it looks the image of a container up as a name, and a repository that bears the id as its name
comes first. `imageDelete_spares_iff` says that these are the only ways to lose an image in use.
-/

namespace DockerEngine.Images

open Filepath List Proc Graph

/-! ## The daemon -/

/-- A container, as far as deletion asks. -/
structure Container where
  id : Str
  imageID : Str
  running : Bool
  deriving DecidableEq, Repr

/-- The daemon: the images, their names, the containers, and the layers held by pulls and builds. -/
structure Daemon where
  graph : Graph
  repositories : Repositories
  containers : List Container
  held : List Str

/-- The order in which a Go map is read. -/
structure MapOrder where
  order : List (Str × List Str) → List (Str × List Str)
  perm : ∀ l, (order l).Perm l

/-- The errors of `ImageDelete`. -/
inductive Err where
  /-- "Image name can not be blank". -/
  | blankName
  /-- "No such image: " + ref. -/
  | noSuchImage (ref : Str)
  /-- "Conflict, cannot delete image " + name + " because it is tagged in multiple repositories, use
  -f to force". -/
  | multipleRepositories (name : Str)
  /-- "Conflict, cannot delete because " + id + " is held by an ongoing pull or build". -/
  | held (id : Str)
  /-- "Conflict, cannot force delete " + id + " because the running container " + container + " is using
  it, stop it and retry". -/
  | runningForced (id container : Str)
  /-- "Conflict, cannot delete " + id + " because the running container " + container + " is using it,
  stop it and use -f to force". -/
  | running (id container : Str)
  /-- "Conflict, cannot delete " + id + " because the container " + container + " is using it, use -f to
  force". -/
  | used (id container : Str)
  /-- An error of `LookupImage` for the image of a container. -/
  | lookup (e : GetErr)
  /-- "Error while getting parent image: " + e. -/
  | parent (e : GetErr)
  /-- An error of `TagStore.Delete`. -/
  | tags (e : NoSuchRepository)
  /-- An error of `Graph.Delete`. -/
  | graph (e : GetErr)
  /-- "Conflict, " + name + " wasn't deleted". -/
  | notDeleted (name : Str)
  /-- The call does not return. -/
  | endless
  deriving DecidableEq, Repr

/-! ## The guard -/

/-- What `canDeleteImage` asks of each image in the history of the image of a container. -/
def isUsing (imgID : Str) (force : Bool) (c : Container) (p : Image) : Except Err Unit :=
  if imgID = p.id then
    if c.running then
      if force then .error (.runningForced (truncateID imgID) (truncateID c.id))
      else .error (.running (truncateID imgID) (truncateID c.id))
    else if force = false then .error (.used (truncateID imgID) (truncateID c.id))
    else .ok ()
  else .ok ()

/-- The errors of the walk over a history, as the caller returns them. -/
def ofWalkErr : Graph.WalkErr Err → Err
  | .handler e => e
  | .parent e => .parent e
  | .endless => .endless

section

variable (N : Naming) (d : Daemon)

/-- One round of the loop over the containers. -/
def checkContainer (imgID : Str) (force : Bool) (c : Container) : Except Err Unit :=
  if c.imageID = [] then .ok ()
  else
    match d.repositories.lookupImage N d.graph c.imageID with
    | .error e => if isNotExist e c.imageID then .ok () else .error (.lookup e)
    | .ok parent => (d.graph.walkHistory parent (isUsing imgID force c)).mapError ofWalkErr

/-- `canDeleteImage`. -/
def canDeleteImage (imgID : Str) (force : Bool) : Except Err Unit :=
  if imgID ∈ d.held then .error (.held (truncateID imgID))
  else d.containers.forM (checkContainer N d imgID force)

/-! ## What is to be deleted -/

/-- `repoAndTags[repo] = append(repoAndTags[repo], tag)`. -/
def addTag (repo tag : Str) : List (Str × List Str) → List (Str × List Str)
  | [] => [(repo, [tag])]
  | (r, tags) :: m => if r = repo then (r, tags ++ [tag]) :: m else (r, tags) :: addTag repo tag m

/-- The same, unless there is no tag. -/
def addParsed (m : List (Str × List Str)) (parsed : Str × Str) : List (Str × List Str) :=
  if parsed.2 = [] then m else addTag parsed.1 parsed.2 m

/-- The loop over the references of an image that is deleted by its id: the last repository, and the
tags in each one. -/
def collect (name : Str) (first force : Bool) :
    Str → List (Str × List Str) → List Str → Except Err (Str × List (Str × List Str))
  | repoName, m, [] => .ok (repoName, m)
  | repoName, m, repoAndTag :: rest =>
    let parsed := parseRepositoryTag repoAndTag
    if repoName = [] ∨ repoName = parsed.1 then
      collect name first force parsed.1 (addParsed m parsed) rest
    else if force = false ∧ first = true then .error (.multipleRepositories name)
    else collect name first force parsed.1 (addParsed m parsed) rest

/-- What `imgDeleteHelper` knows before it asks the guard. -/
structure Plan where
  img : Image
  repoName : Str
  deleteByID : Bool
  /-- The references of the image. -/
  repos : List Str
  /-- The references to delete. -/
  repoAndTags : List (Str × List Str)
  /-- The images built on the image. -/
  children : List Image

/-- The repository the image was named by: none if the name is part of its id. -/
def repoNameOf (name : Str) (img : Image) : Str :=
  if name <:+: img.id then [] else (parseRepositoryTag name).1

/-- The first part of `imgDeleteHelper`, which changes nothing. -/
def plan (name : Str) (first force : Bool) : Except Err Plan :=
  let tag := Repositories.orDefault (parseRepositoryTag name).2
  if name = [] then .error .blankName
  else
    match d.repositories.lookupImage N d.graph name with
    | .error _ =>
      let repoName := (parseRepositoryTag name).1
      .error (.noSuchImage (if d.repositories.exists_ (N.normalizeLocalName repoName)
        then imageReference repoName tag else name))
    | .ok img =>
      let repoName := repoNameOf name img
      let repos := d.repositories.byID img.id
      if repoName = [] then
        match collect name first force [] [] repos with
        | .error e => .error e
        | .ok (repoName, repoAndTags) =>
          .ok ⟨img, repoName, true, repos, repoAndTags, d.graph.byParent img.id⟩
      else .ok ⟨img, repoName, false, repos, addTag repoName tag [], d.graph.byParent img.id⟩

/-- Whether the guard is asked. -/
def Plan.asks (p : Plan) : Bool := p.repos.length ≤ 1 || (p.repoAndTags.length ≤ 1 && p.deleteByID)

/-! ## Deleting -/

/-- An entry of the answer. -/
inductive Deleted where
  | untagged (ref : Str)
  | deleted (id : Str)
  deriving DecidableEq, Repr

/-- A call under way: the daemon and the list of what has been deleted. -/
structure Call where
  daemon : Daemon
  list : List Deleted

/-- An operation of the tag store. -/
def onTags {α ε : Type} (m : Proc Repositories ε α) : Proc Call ε α := fun c =>
  ((m c.daemon.repositories).1,
    { c with daemon := { c.daemon with repositories := (m c.daemon.repositories).2 } })

/-- An operation of the graph. -/
def onGraph {α ε : Type} (m : Proc Graph ε α) : Proc Call ε α := fun c =>
  ((m c.daemon.graph).1, { c with daemon := { c.daemon with graph := (m c.daemon.graph).2 } })

/-- `*list = append(*list, x)`. -/
def addToList {ε : Type} (x : Deleted) : Proc Call ε Unit := fun c =>
  (.ok (), { c with list := c.list ++ [x] })

/-- The pairs of repository and tag that the two loops of the untagging run through. -/
def pairs (repoAndTags : List (Str × List Str)) : List (Str × Str) :=
  repoAndTags.flatMap fun x => x.2.map fun tag => (x.1, tag)

/-- The body of the loops. -/
def untagOne (x : Str × Str) : Proc Call NoSuchRepository Unit := do
  let tagDeleted ← onTags (Repositories.delete N x.1 x.2)
  if tagDeleted then addToList (.untagged (imageReference x.1 x.2)) else pure ()

/-- The loops that untag the image. -/
def untag (O : MapOrder) (repoAndTags : List (Str × List Str)) : Proc Call NoSuchRepository Unit :=
  (pairs (O.order repoAndTags)).forM (untagOne N)

/-- The image is removed from the tag store and the graph. -/
def removeImage (id : Str) : Proc Call Err Unit := do
  (onTags (Repositories.deleteAll N id)).mapError Err.tags
  (onGraph (delete id)).mapError Err.graph
  addToList (.deleted id)

/-- The last part of `imgDeleteHelper`, with what it does for the parent. An error from there counts only
in the first call. -/
def finish (noprune first : Bool) (p : Plan) (next : Proc Call Err Unit) : Proc Call Err Unit := do
  let tags ← read fun c => c.daemon.repositories.byID p.img.id
  if (tags.length ≤ 1 ∧ p.repoName = []) ∨ tags.length = 0 then
    if p.children = [] then
      removeImage N p.img.id
      if p.img.parent ≠ [] ∧ noprune = false then
        if first then next else next.ignoreError
      else pure ()
    else pure ()
  else pure ()

/-- The part of `imgDeleteHelper` that acts. -/
def act (O : MapOrder) (noprune first : Bool) (p : Plan) (next : Proc Call Err Unit) : Proc Call Err Unit := do
  (untag N O p.repoAndTags).mapError Err.tags
  finish N noprune first p next

/-- `imgDeleteHelper`, for at most the given number of generations. -/
def imgDeleteHelper (N : Naming) (O : MapOrder) (force noprune : Bool) : Nat → Str → Bool → Proc Call Err Unit
  | 0, _, _ => fail .endless
  | n + 1, name, first => do
    let d ← read Call.daemon
    match plan N d name first force with
    | .error e => fail e
    | .ok p =>
      if first = false ∧ p.repoAndTags ≠ [] then pure ()
      else
        match if p.asks then canDeleteImage N d p.img.id force else .ok () with
        | .error e => fail e
        | .ok _ => act N O noprune first p (imgDeleteHelper N O force noprune n p.img.parent false)

/-- `ImageDelete`. Each generation removes an image, so there are no more of them than images. -/
def imageDelete (O : MapOrder) (name : Str) (force noprune : Bool) : Proc Daemon Err (List Deleted) := fun d =>
  match imgDeleteHelper N O force noprune (d.graph.images.length + 1) name true ⟨d, []⟩ with
  | (.error e, c) => (.error e, c.daemon)
  | (.ok _, c) => if c.list = [] then (.error (.notDeleted name), c.daemon) else (.ok c.list, c.daemon)

/-! ## What is asked for -/

/-- The image is held, or it is in the history of the image of a container, which counts when it is
running and, unless the call is forced, when it is not. -/
def InUse (force : Bool) (X : Image) : Prop :=
  X.id ∈ d.held ∨ ∃ c ∈ d.containers, (c.running = true ∨ force = false) ∧
    ∃ z ∈ d.graph.images, z.id = c.imageID ∧ d.graph.Ancestor z X

/-- No image that was in use is gone. -/
def Spares (d' : Daemon) (force : Bool) : Prop := ∀ X ∈ d.graph.images, X ∉ d'.graph.images → ¬ InUse d force X

/-- No repository bears the id of the image of a container as its name and leads to another image. -/
def Unshadowed : Prop :=
  ∀ c ∈ d.containers, ∀ z ∈ d.graph.images, z.id = c.imageID →
    ∀ r ∈ d.repositories.refs, r.repo = z.id → r.tag = defaultTag → r.id = z.id

/-- The image would be deleted by its id and without a question: it has references in more than one
repository, and none of its references stands in the way. -/
structure Unasked (N : Naming) (d : Daemon) (name : Str) (force : Bool) (T : Image) : Prop where
  named : name ≠ []
  found : d.repositories.lookupImage N d.graph name = .ok T
  byID : name <:+: T.id ∨ (parseRepositoryTag name).1 = []
  spread : ∃ r ∈ d.repositories.byID T.id, ∃ r' ∈ d.repositories.byID T.id,
    (parseRepositoryTag r).2 ≠ [] ∧ (parseRepositoryTag r').2 ≠ [] ∧
      (parseRepositoryTag r).1 ≠ (parseRepositoryTag r').1
  forced : force = true ∨ ∃ r ∈ d.repositories.byID T.id, (parseRepositoryTag r).1 = []
  childless : d.graph.byParent T.id = []

/-- References as the registry accepts them: they can be read again, their repositories have their
local form, and none is named like an image. -/
def ValidRefs (t : Repositories) : Prop :=
  ∀ r ∈ t.refs, Readable r.repo r.tag ∧ r.repo ≠ [] ∧ r.tag ≠ [] ∧
    N.normalizeLocalName r.repo = r.repo ∧ validID r.repo = false

end

/-! ## What the guard sees -/

section Guard

variable {N : Naming} {d₀ d : Daemon} {force : Bool} {X : Image}

theorem forM_eq_ok {ε ι : Type} {f : ι → Except ε PUnit} {l : List ι} :
    l.forM f = .ok ⟨⟩ ↔ ∀ i ∈ l, f i = .ok ⟨⟩ := by
  induction l with
  | nil => simp [pure, Except.pure]
  | cons i l ih =>
    rw [forall_mem_cons, ← ih]
    show (f i >>= fun _ => l.forM f) = .ok ⟨⟩ ↔ _
    rcases f i with e | u
    · exact ⟨nofun, fun h => nomatch h.1⟩
    · exact ⟨fun h => ⟨rfl, h⟩, fun h => h.2⟩

/-- What the call keeps as long as nothing in use is gone. -/
structure Safe (d₀ : Daemon) (force : Bool) (d : Daemon) : Prop where
  containers : d.containers = d₀.containers
  held : d.held = d₀.held
  tags : Repositories.Within d₀.repositories d.repositories
  spared : Spares d₀ d force

theorem isUsing_self {c : Container} (h : c.running ∨ force = false) : isUsing X.id force c X ≠ .ok () := by
  unfold isUsing
  rw [if_pos rfl]
  split
  next => split <;> nofun
  next hstopped =>
    rw [if_pos (h.resolve_left (by simpa using hstopped))]
    nofun

/-- What the guard lets pass is not in use, as long as nothing in use is gone and no name gets in the
way. -/
theorem not_inUse_of_canDeleteImage (hF : d₀.graph.Forest) (hU : Unshadowed d₀) (hs : Safe d₀ force d)
    (h : canDeleteImage N d X.id force = .ok ()) : ¬ InUse d₀ force X := by
  unfold canDeleteImage at h
  split at h
  · cases h
  next hheld =>
    rw [forM_eq_ok] at h
    rintro (hX | ⟨c, hc, hcounts, z, hz, hzid, hanc⟩)
    · exact hheld (hs.held ▸ hX)
    -- the history of the container's image is still there
    have hkept : ∀ j, d₀.graph.Ancestor z j → j ∈ d.graph.images := by
      intro j hj
      by_contra hgone
      exact hs.spared j (hj.mem hz) hgone (.inr ⟨c, hc, hcounts, z, hz, hzid, hj⟩)
    have hz' := hkept z (.refl z)
    have hcheck := h c (hs.containers ▸ hc)
    have hlookup : d.repositories.lookupImage N d.graph c.imageID = .ok z := by
      rw [← hzid]
      apply Repositories.lookupImage_id hz'
      intro r hr hrepo htag
      exact hU c hc z hz hzid r (hs.tags r hr) hrepo htag
    have hne : c.imageID ≠ [] := hzid ▸ validID_ne_nil (d₀.graph.ids z hz)
    rw [checkContainer, if_neg hne, hlookup] at hcheck
    have hwalk : d.graph.walkHistory z (isUsing X.id force c) = .ok () := by
      simp only at hcheck
      rcases hw : d.graph.walkHistory z (isUsing X.id force c) with e | u
      · rw [hw] at hcheck
        cases hcheck
      · rfl
    exact isUsing_self hcounts (walkRounds_sees (hanc.of_subset hz hF.parents hkept) hwalk)

end Guard

/-! ## What a call keeps -/

variable {name : Str}

section Preserves

variable {N : Naming} {O : MapOrder} {force noprune first : Bool} {I : Daemon → Prop} {p : Plan}

/-- A property of the daemon, in the course of a call. -/
abbrev On (I : Daemon → Prop) (c : Call) : Prop := I c.daemon

/-- The image has a reference. -/
def Tagged (id : Str) (d : Daemon) : Prop := ∃ r ∈ d.repositories.refs, r.id = id

/-- A property of the daemon that losing references does not touch. -/
def TagFree (I : Daemon → Prop) : Prop :=
  ∀ d t, I d → Repositories.Within d.repositories t → I { d with repositories := t }

variable {d : Daemon} {ε : Type}

theorem onTags_keeps (hI : TagFree I) {α : Type} {m : Proc Repositories ε α}
    (hm : ∀ t, Repositories.Within t (m t).2) :
    Preserves (On I) (onTags m) := by
  apply Triple.of_snd
  intro c hc
  exact hI c.daemon _ hc (hm c.daemon.repositories)

theorem addToList_keeps {E : Call → Prop} (x : Deleted) : Triple (On I)
    (addToList x : Proc Call ε Unit) (fun _ => On I) E := by
  exact Triple.iff_ends.mpr fun _ hc => hc

theorem untag_keeps (hI : TagFree I) (repoAndTags : List (Str × List Str)) :
    Preserves (On I) (untag N O repoAndTags) := by
  apply Triple.forM
  intro x _
  refine (onTags_keeps hI fun t => ?_).bind fun tagDeleted => ?_
  · exact (Repositories.delete_within x.1 x.2).snd fun r hr => hr
  · split
    · exact addToList_keeps _
    · exact .pure _ fun _ h => h

/-- The removal of an image keeps what losing its references and losing it keeps. -/
theorem removeImage_keeps (hI : TagFree I) {id : Str} (hid : validID id)
    (hremove : ∀ d, I d → I { d with graph := d.graph.remove id }) :
    Preserves (On I) (removeImage N id) := by
  refine (onTags_keeps hI fun t => ?_).mapError.bind fun _ => ?_
  · exact (Repositories.deleteAll_within id).snd fun r hr => hr
  refine (Triple.mapError (Triple.of_snd fun c hc => ?_)).bind fun _ => addToList_keeps _
  rcases hget : c.daemon.graph.get id with e | i
  · have hrun : delete id c.daemon.graph = (.error e, c.daemon.graph) := by
      rw [delete, hget]
    show I { c.daemon with graph := (delete id c.daemon.graph).2 }
    rw [hrun]
    exact hc
  · obtain ⟨hi, hpre⟩ := mem_of_get hget
    have hrun : delete id c.daemon.graph = (.ok (), c.daemon.graph.remove id) := by
      rw [delete, hget, validID_begins hid (c.daemon.graph.ids i hi) hpre]
    show I { c.daemon with graph := (delete id c.daemon.graph).2 }
    rw [hrun]
    exact hremove c.daemon hc

/-- The last part keeps the property when it may lose the image, or when the image keeps a reference
and so stays. -/
theorem finish_keeps (hI : TagFree I) (hid : validID p.img.id) {next : Proc Call Err Unit}
    (hnext : Preserves (On I) next) :
    Triple (fun c => I c.daemon ∧
        ((p.children = [] → ∀ d, I d → I { d with graph := d.graph.remove p.img.id }) ∨
          p.repoName ≠ [] ∧ Tagged p.img.id c.daemon))
      (finish N noprune first p next) (fun _ => On I) (On I) := by
  refine .read_bind fun tags => ?_
  have hskip : ∀ {P : Call → Prop}, (∀ c, P c → I c.daemon) → Triple P
      (pure () : Proc Call Err Unit) (fun _ => On I) (On I) :=
    fun h => .pure _ h
  split
  next htags =>
    split
    next hchildren =>
      intro c hc
      obtain ⟨⟨hd, hlose⟩, hread⟩ := hc
      have hlose : ∀ d, I d → I { d with graph := d.graph.remove p.img.id } := by
        rcases hlose with hlose | ⟨hrepo, r, hr, hrid⟩
        · exact hlose hchildren
        -- the image has a reference left, so this part is not reached
        have hnil : tags = [] := by
          rcases htags with ⟨-, h⟩ | h
          · exact absurd h hrepo
          · exact length_eq_zero_iff.mp h
        rw [← hread, Repositories.byID_eq_nil] at hnil
        exact absurd hrid (hnil r hr)
      refine ((removeImage_keeps hI hid hlose).bind fun _ => ?_) c hd
      split
      · split
        · exact hnext
        · exact hnext.ignoreError
      · exact hskip fun _ h => h
    next => exact hskip fun _ h => h.1.1
  next => exact hskip fun _ h => h.1.1

/-- What a plan says of the state it was made in. -/
structure Plan.Fits (N : Naming) (d : Daemon) (name : Str) (first force : Bool) (p : Plan) : Prop where
  found : d.repositories.lookupImage N d.graph name = .ok p.img
  repos : p.repos = d.repositories.byID p.img.id
  children : p.children = d.graph.byParent p.img.id
  byID : p.deleteByID = true → repoNameOf name p.img = [] ∧
    collect name first force [] [] p.repos = .ok (p.repoName, p.repoAndTags)
  byName : p.deleteByID = false → p.repoName ≠ [] ∧
    p.repoAndTags = [(p.repoName, [Repositories.orDefault (parseRepositoryTag name).2])]

theorem plan_fits (h : plan N d name first force = .ok p) : p.Fits N d name first force := by
  unfold plan at h
  dsimp only at h
  split at h
  · cases h
  split at h
  · cases h
  next img hlookup =>
    generalize hrepo : repoNameOf name img = repoName at h
    split at h
    next hnil =>
      split at h
      · cases h
      next hcollect =>
        cases h
        exact ⟨hlookup, rfl, rfl, fun _ => ⟨hrepo.trans hnil, hcollect⟩, nofun⟩
    next hne =>
      cases h
      exact ⟨hlookup, rfl, rfl, nofun, fun _ => ⟨hne, rfl⟩⟩

/-- The image of a plan is in the graph. -/
theorem Plan.Fits.mem (h : p.Fits N d name first force) :
    p.img ∈ d.graph.images := Repositories.mem_of_lookupImage h.found

/-- Where nothing is to be untagged the guard is asked. -/
theorem Plan.Fits.asks (h : p.Fits N d name first force) (hnil : p.repoAndTags = []) : p.asks := by
  cases hby : p.deleteByID with
  | true => simp [Plan.asks, hnil, hby]
  | false =>
    rw [(h.byName hby).2] at hnil
    cases hnil

/-- **What every call for a parent keeps**: a property that losing references keeps, and losing an
image that the guard lets pass. -/
theorem imgDeleteHelper_keeps (hI : TagFree I) {Cleared : Image → Prop}
    (hguard : ∀ d X, I d → canDeleteImage N d X.id force = .ok () → Cleared X)
    (hremove : ∀ d X, I d → Cleared X → I { d with graph := d.graph.remove X.id }) (n : Nat)
    (name : Str) : Preserves (On I) (imgDeleteHelper N O force noprune n name false) := by
  induction n generalizing name with
  | zero => exact .fail _ fun _ h => h
  | succ n ih =>
    refine .read_bind fun d => ?_
    split
    · exact .fail _ fun _ h => h.1
    next p hplan =>
      split
      · exact .pure _ fun _ h => h.1
      next hnil =>
        have hfits := plan_fits hplan
        have hasks : p.asks := hfits.asks (by simpa using hnil)
        rw [if_pos hasks]
        split
        · exact .fail _ fun _ h => h.1
        next hcan =>
          intro c hc
          obtain ⟨hd, rfl⟩ := hc
          have hid := c.daemon.graph.ids p.img hfits.mem
          have hclear : Cleared p.img := hguard c.daemon p.img hd hcan
          refine ((untag_keeps hI p.repoAndTags).mapError.bind fun _ => ?_) c hd
          apply (finish_keeps hI hid (ih p.img.parent)).pre
          intro c hc
          exact ⟨hc, .inl fun _ d hd => hremove d p.img hd hclear⟩

end Preserves

/-! ## References, collected by repository -/

variable {rs : List Str}

section Collect

variable {name : Str} {first force : Bool}

variable {m : List (Str × List Str)}

theorem mem_addTag_keys {repo tag r : Str} :
    r ∈ (addTag repo tag m).map Prod.fst ↔ r = repo ∨ r ∈ m.map Prod.fst := by
  induction m with
  | nil => simp [addTag]
  | cons x m ih =>
    rw [addTag]
    split
    next hr => simp [hr]
    next => rw [map_cons, map_cons, mem_cons, mem_cons, ih, or_left_comm]

theorem nodup_addTag_keys {repo tag : Str} (hm : (m.map Prod.fst).Nodup) :
    ((addTag repo tag m).map Prod.fst).Nodup := by
  induction m with
  | nil => exact nodup_singleton repo
  | cons x m ih =>
    obtain ⟨hx, hrest⟩ := nodup_cons.mp hm
    rw [addTag]
    split
    next => exact hm
    next hr => exact nodup_cons.mpr ⟨fun hmem => (mem_addTag_keys.mp hmem).elim hr hx, ih hrest⟩

/-- The tags of a collection by repository. -/
def grouped (ps : List (Str × Str)) : List (Str × List Str) := ps.foldl addParsed []

/-- The repositories of a collection are different, and each of them has a tag. -/
theorem foldl_addParsed_keys (ps : List (Str × Str)) (hm : (m.map Prod.fst).Nodup) :
    ((ps.foldl addParsed m).map Prod.fst).Nodup ∧
      ∀ r, r ∈ (ps.foldl addParsed m).map Prod.fst ↔ r ∈ m.map Prod.fst ∨ ∃ x ∈ ps, x.2 ≠ [] ∧ x.1 = r := by
  induction ps generalizing m with
  | nil => exact ⟨hm, by simp⟩
  | cons x ps ih =>
    rw [foldl_cons, addParsed]
    split
    next htag =>
      obtain ⟨hnodup, hmem⟩ := ih hm
      exact ⟨hnodup, fun r => by simp [hmem, htag]⟩
    next htag =>
      obtain ⟨hnodup, hmem⟩ := ih (nodup_addTag_keys hm)
      refine ⟨hnodup, fun r => ?_⟩
      rw [hmem, mem_addTag_keys]
      simp [htag, or_assoc, or_left_comm, eq_comm]

/-- A collection has more than one repository exactly when two references with tags differ in it. -/
theorem one_lt_length_grouped {ps : List (Str × Str)} : 1 < (grouped ps).length ↔
    ∃ x ∈ ps, ∃ y ∈ ps, x.2 ≠ [] ∧ y.2 ≠ [] ∧ x.1 ≠ y.1 := by
  obtain ⟨hnodup, hmem⟩ := foldl_addParsed_keys (m := []) ps nodup_nil
  rw [grouped, ← length_map Prod.fst, ← toFinset_card_of_nodup hnodup, Finset.one_lt_card]
  simp only [mem_toFinset, hmem]
  constructor
  · rintro ⟨_, ha, _, hb, hab⟩
    obtain ⟨x, hx, hxt, rfl⟩ := ha.resolve_left (by simp)
    obtain ⟨y, hy, hyt, rfl⟩ := hb.resolve_left (by simp)
    exact ⟨x, hx, y, hy, hxt, hyt, hab⟩
  · rintro ⟨x, hx, y, hy, hxt, hyt, hab⟩
    exact ⟨x.1, .inr ⟨x, hx, hxt, rfl⟩, y.1, .inr ⟨y, hy, hyt, rfl⟩, hab⟩

/-- What the loop over the references returns when it does. -/
theorem collect_eq {repoName repoName' : Str} {m' : List (Str × List Str)}
    (h : collect name first force repoName m rs = .ok (repoName', m')) :
    m' = (rs.map parseRepositoryTag).foldl addParsed m := by
  induction rs generalizing repoName m with
  | nil =>
    cases h
    rfl
  | cons r rs ih =>
    rw [collect] at h
    split at h
    · exact ih h
    · split at h
      · cases h
      · exact ih h

/-- A forced call takes the references of all repositories. -/
theorem collect_forced (repoName : Str) (m : List (Str × List Str)) (rs : List Str) :
    ∃ repoName', collect name first true repoName m rs =
      .ok (repoName', (rs.map parseRepositoryTag).foldl addParsed m) := by
  induction rs generalizing repoName m with
  | nil => exact ⟨repoName, rfl⟩
  | cons r rs ih =>
    rw [collect]
    split
    · exact ih _ _
    · rw [if_neg (by simp)]
      exact ih _ _

/-- A first call that is not forced takes the references of one repository. -/
theorem collect_same {repoName : Str} {out : Str × List (Str × List Str)}
    (h : collect name true false repoName m rs = .ok out)
    (hne : ∀ r ∈ rs, (parseRepositoryTag r).1 ≠ []) (hrepo : repoName ≠ []) :
    ∀ r ∈ rs, (parseRepositoryTag r).1 = repoName := by
  induction rs generalizing m with
  | nil => nofun
  | cons r rs ih =>
    rw [collect] at h
    split at h
    next hsame =>
      have hr := (hsame.resolve_left hrepo).symm
      rw [hr] at h
      exact forall_mem_cons.mpr ⟨hr, ih h (forall_mem_cons.mp hne).2⟩
    next => cases h

/-- Where a first call goes on with the references of several repositories, it is forced or one of the
repositories has no name. -/
theorem collect_spread {out : Str × List (Str × List Str)}
    (h : collect name true force [] m rs = .ok out) {r r' : Str} (hr : r ∈ rs) (hr' : r' ∈ rs)
    (hdiff : (parseRepositoryTag r).1 ≠ (parseRepositoryTag r').1) :
    force ∨ ∃ r ∈ rs, (parseRepositoryTag r).1 = [] := by
  by_contra hnot
  rw [not_or, Bool.not_eq_true] at hnot
  obtain ⟨rfl, hall⟩ := hnot
  have hne : ∀ r ∈ rs, (parseRepositoryTag r).1 ≠ [] := fun r hr h0 => hall ⟨r, hr, h0⟩
  cases rs with
  | nil => cases hr
  | cons a rs =>
    rw [collect, if_pos (.inl rfl)] at h
    have hsame := collect_same h (forall_mem_cons.mp hne).2 (hne a (by simp))
    have hall : ∀ x ∈ a :: rs, (parseRepositoryTag x).1 = (parseRepositoryTag a).1 := by
      intro x hx
      rcases mem_cons.mp hx with rfl | hx
      · rfl
      · exact hsame x hx
    exact hdiff ((hall r hr).trans (hall r' hr').symm)

end Collect

/-! ## Nothing in use is lost -/

section Spared

variable {N : Naming} {O : MapOrder} {d₀ d : Daemon} {name : Str} {force noprune first : Bool} {p : Plan}

theorem safe_tagFree : TagFree (Safe d₀ force) := by
  intro d t hd ht
  exact ⟨hd.containers, hd.held, fun r hr => hd.tags r (ht r hr), hd.spared⟩

/-- No image with this id was in use. -/
def Cleared (d₀ : Daemon) (force : Bool) (X : Image) : Prop := ∀ Y ∈ d₀.graph.images, Y.id = X.id → ¬ InUse d₀ force Y

theorem Safe.remove (hd : Safe d₀ force d) {X : Image} (hX : Cleared d₀ force X) :
    Safe d₀ force { d with graph := d.graph.remove X.id } := by
  refine ⟨hd.containers, hd.held, hd.tags, fun Y hY hgone => ?_⟩
  by_cases hYd : Y ∈ d.graph.images
  · apply hX Y hY
    by_contra hne
    exact hgone (mem_remove.mpr ⟨hYd, hne⟩)
  · exact hd.spared Y hY hYd

theorem Safe.cleared (hF : d₀.graph.Forest) (hU : Unshadowed d₀) (hd : Safe d₀ force d) {X : Image}
    (h : canDeleteImage N d X.id force = .ok ()) : Cleared d₀ force X := by
  intro Y _ hid
  rw [← hid] at h
  exact not_inUse_of_canDeleteImage hF hU hd h

theorem orDefault_ne_nil (tag : Str) : Repositories.orDefault tag ≠ [] := by
  unfold Repositories.orDefault
  split
  · decide
  · assumption

/-- A single reference is untagged, and another one of the image is left. -/
theorem untag_single {I : Daemon → Prop} (hI : TagFree I) {repo tag id : Str} (htag : tag ≠ []) :
    Triple (On fun d => I d ∧ 1 < (d.repositories.byID id).length) (untag N O [(repo, [tag])])
      (fun _ => On fun d => I d ∧ Tagged id d) (On I) := by
  have horder : pairs (O.order [(repo, [tag])]) = [(repo, tag)] := by
    rw [perm_singleton.mp (O.perm _)]
    rfl
  have hdelete : Triple (On fun d => I d ∧ 1 < (d.repositories.byID id).length)
      (onTags (Repositories.delete N repo tag)) (fun _ => On fun d => I d ∧ Tagged id d)
      (On fun d => I d ∧ Tagged id d) := by
    apply Triple.of_snd
    intro c hc
    have hwithin := (@Repositories.delete_within N c.daemon.repositories repo tag).snd fun r hr => hr
    exact ⟨hI c.daemon _ hc.1 hwithin, Repositories.delete_leaves htag hc.2⟩
  rw [untag, horder]
  refine .bind (Q := fun _ => On fun d => I d ∧ Tagged id d) ?_ fun _ => .pure _ fun _ h => h
  refine (hdelete.mono (fun _ h => h) (fun _ _ h => h) fun _ h => h.1).bind fun tagDeleted => ?_
  split
  · exact addToList_keeps _
  · exact .pure _ fun _ h => h

/-- Where the guard is not asked and the image is given by its id, the call goes unasked. -/
theorem Plan.Fits.unasked (h : p.Fits N d₀ name true force) (hname : name ≠ [])
    (hasks : p.asks = false) (hby : p.deleteByID) (hchildren : p.children = []) :
    Unasked N d₀ name force p.img := by
  obtain ⟨hrepo, hcollect⟩ := h.byID hby
  have hlen : 1 < (grouped (p.repos.map parseRepositoryTag)).length := by
    rw [grouped, ← collect_eq hcollect]
    simp only [Plan.asks, hby, Bool.and_true, Bool.or_eq_false_iff, decide_eq_false_iff_not] at hasks
    omega
  obtain ⟨x, hx, y, hy, hxt, hyt, hxy⟩ := one_lt_length_grouped.mp hlen
  obtain ⟨r, hr, rfl⟩ := mem_map.mp hx
  obtain ⟨r', hr', rfl⟩ := mem_map.mp hy
  have hforced := collect_spread hcollect hr hr' hxy
  rw [h.repos] at hr hr' hforced
  refine ⟨hname, h.found, ?_, ⟨r, hr, r', hr', hxt, hyt, hxy⟩, hforced, h.children ▸ hchildren⟩
  unfold repoNameOf at hrepo
  split at hrepo
  · exact .inl ‹_›
  · exact .inr hrepo

theorem name_ne_nil (h : plan N d name first force = .ok p) : name ≠ [] := by
  rintro rfl
  simp [plan] at h

/-- **Nothing in use is lost** by a call that is not unasked, as long as no name gets in the way. -/
theorem imgDeleteHelper_safe (hF : d₀.graph.Forest) (hU : Unshadowed d₀)
    (hK : ∀ T, Unasked N d₀ name force T → ¬ InUse d₀ force T)
    (n : Nat) (list : List Deleted) :
    Safe d₀ force (imgDeleteHelper N O force noprune n name true ⟨d₀, list⟩).2.daemon := by
  have hstart : Safe d₀ force d₀ := ⟨rfl, rfl, fun r hr => hr, fun X => absurd⟩
  have hnext : ∀ n parent, Preserves (On (Safe d₀ force))
      (imgDeleteHelper N O force noprune n parent false) :=
    fun n parent => imgDeleteHelper_keeps safe_tagFree (fun d X hd => hd.cleared hF hU)
      (fun d X hd => hd.remove) n parent
  cases n with
  | zero => exact hstart
  | succ n =>
    rw [imgDeleteHelper, read_bind_run]
    rcases hplan : plan N d₀ name true force with e | p
    · simp only
      exact hstart
    have hfits := plan_fits hplan
    have hid := d₀.graph.ids p.img hfits.mem
    have hown : ¬ InUse d₀ force p.img → Cleared d₀ force p.img := by
      intro hnot Y hY heq
      rwa [eq_of_id hY hfits.mem heq]
    simp only [Bool.true_eq_false, false_and, if_false]
    rcases hcan : if p.asks = true then canDeleteImage N d₀ p.img.id force else .ok () with e | u
    · simp only
      exact hstart
    simp only
    -- either the image may go, or it keeps a reference
    have hact : ∀ {P : Call → Prop} {Q : Unit → Call → Prop}, P ⟨d₀, list⟩ →
        Triple P (untag N O p.repoAndTags) Q (On (Safe d₀ force)) →
        (∀ u c, Q u c → Safe d₀ force c.daemon ∧
          ((p.children = [] → ∀ d, Safe d₀ force d → Safe d₀ force { d with graph := d.graph.remove p.img.id }) ∨
            p.repoName ≠ [] ∧ Tagged p.img.id c.daemon)) →
        Safe d₀ force (act N O noprune true p
          (imgDeleteHelper N O force noprune n p.img.parent false) ⟨d₀, list⟩).2.daemon := by
      intro P Q hP huntag hQ
      have hwhole : Triple P (act N O noprune true p (imgDeleteHelper N O force noprune n p.img.parent false))
          (fun _ => On (Safe d₀ force)) (On (Safe d₀ force)) :=
        huntag.mapError.bind fun u => (finish_keeps safe_tagFree hid (hnext n _)).pre (hQ u)
      exact hwhole.snd hP
    by_cases hasks : p.asks
    · rw [if_pos hasks] at hcan
      have hclear := hstart.cleared hF hU hcan
      exact hact hstart (untag_keeps safe_tagFree _) fun _ c hc => ⟨hc, .inl fun _ d hd => hd.remove hclear⟩
    · rw [Bool.not_eq_true] at hasks
      cases hby : p.deleteByID with
      | true =>
        refine hact hstart (untag_keeps safe_tagFree _) fun _ c hc => ⟨hc, .inl fun hchildren d hd => ?_⟩
        have hun := hfits.unasked (name_ne_nil hplan) hasks hby hchildren
        exact hd.remove (hown (hK _ hun))
      | false =>
        obtain ⟨hrepo, hpairs⟩ := hfits.byName hby
        have hmany : 1 < (d₀.repositories.byID p.img.id).length := by
          rw [← hfits.repos]
          simp only [Plan.asks, hby, Bool.and_false, Bool.or_false, decide_eq_false_iff_not] at hasks
          omega
        have huntag := @untag_single N O _ (@safe_tagFree d₀ force) p.repoName _ p.img.id
          (orDefault_ne_nil (parseRepositoryTag name).2)
        rw [← hpairs] at huntag
        exact hact ⟨hstart, hmany⟩ huntag fun _ c hc => ⟨hc.1, .inr ⟨hrepo, hc.2⟩⟩

end Spared

/-! ## The call returns -/

section Returns

variable {N : Naming} {O : MapOrder} {d : Daemon} {force noprune first : Bool}

theorem collect_ne_endless {name repoName : Str} {m : List (Str × List Str)} :
    collect name first force repoName m rs ≠ .error .endless := by
  induction rs generalizing repoName m with
  | nil => nofun
  | cons r rs ih =>
    rw [collect]
    split
    · exact ih
    · split
      · nofun
      · exact ih

theorem plan_ne_endless : plan N d name first force ≠ .error .endless := by
  unfold plan
  dsimp only
  split
  · nofun
  split
  · nofun
  split
  · split
    next h =>
      intro heq
      cases heq
      exact collect_ne_endless h
    · nofun
  · nofun

theorem isUsing_ne_endless {imgID : Str} {c : Container} {i : Image} : isUsing imgID force c i ≠ .error .endless := by
  unfold isUsing
  split
  · split
    · split <;> nofun
    · split <;> nofun
  · nofun

theorem checkContainer_ne_endless (h : d.graph.Acyclic) {imgID : Str} {c : Container} :
    checkContainer N d imgID force c ≠ .error .endless := by
  unfold checkContainer
  split
  · nofun
  split
  · split <;> nofun
  next parent hlookup =>
    have hmem := Repositories.mem_of_lookupImage hlookup
    rcases hwalk : d.graph.walkHistory parent (isUsing imgID force c) with e | u
    · cases e with
      | handler e =>
        obtain ⟨j, hj⟩ := walkRounds_handler hwalk
        intro heq
        cases heq
        exact isUsing_ne_endless hj
      | parent e => nofun
      | endless => exact absurd hwalk (walkHistory_returns h hmem)
    · nofun

theorem forM_ne_error {ε ι : Type} {f : ι → Except ε PUnit} {x : ε} {l : List ι}
    (h : ∀ i ∈ l, f i ≠ .error x) : l.forM f ≠ .error x := by
  induction l with
  | nil => nofun
  | cons i l ih =>
    show (f i >>= fun _ => l.forM f) ≠ .error x
    rcases hi : f i with e | u
    · intro heq
      cases heq
      exact h i (by simp) hi
    · exact ih (forall_mem_cons.mp h).2

/-- The graph of the daemon. -/
def HasGraph (g : Graph) (d : Daemon) : Prop := d.graph = g

theorem hasGraph_tagFree (g : Graph) : TagFree (HasGraph g) := fun _ _ hd _ => hd

theorem onGraph_delete {g : Graph} {i : Image} (hi : i ∈ g.images) :
    Triple (On (HasGraph g)) (onGraph (delete i.id))
      (fun _ c => HasGraph (g.remove i.id) c.daemon) (fun _ => False) := by
  refine .of_run fun c hc => ?_
  have hget : c.daemon.graph.get i.id = .ok i := by
    rw [hc]
    exact get_id hi
  have hrun : delete i.id c.daemon.graph = (.ok (), c.daemon.graph.remove i.id) := by
    rw [delete, hget]
  have hwhole : onGraph (delete i.id) c =
      (.ok (), { c with daemon := { c.daemon with graph := c.daemon.graph.remove i.id } }) := by
    rw [onGraph, hrun]
  refine ⟨(), _, hwhole, ?_⟩
  show c.daemon.graph.remove i.id = g.remove i.id
  rw [hc]

theorem removeImage_avoids {g : Graph} {i : Image} (hi : i ∈ g.images) :
    Avoids .endless (On (HasGraph g)) (removeImage N i.id)
      (fun _ c => HasGraph (g.remove i.id) c.daemon) := by
  refine (Avoids.mapError nofun (onTags_keeps (hasGraph_tagFree g) fun t => ?_)).bind fun _ => ?_
  · exact (Repositories.deleteAll_within i.id).snd fun r hr => hr
  refine (Avoids.mapError nofun (onGraph_delete hi)).bind fun _ => ?_
  intro c hc
  refine ⟨nofun, fun _ c' h => ?_⟩
  cases h
  exact hc

/-- In a forest every call returns: each generation removes an image. -/
theorem imgDeleteHelper_returns (n : Nat) (name : Str) :
    Avoids .endless (fun c => c.daemon.graph.Forest ∧ c.daemon.graph.images.length < n)
      (imgDeleteHelper N O force noprune n name first) (fun _ _ => True) := by
  induction n generalizing name first with
  | zero =>
    intro c hc
    exact absurd hc.2 (by omega)
  | succ n ih =>
    refine .read_bind fun d => ?_
    split
    next e hplan => exact .fail fun he => plan_ne_endless (he ▸ hplan)
    next p hplan =>
      split
      · exact .pure _ fun _ _ => trivial
      intro c hc
      obtain ⟨⟨hforest, hlen⟩, rfl⟩ := hc
      have hmem := (plan_fits hplan).mem
      rcases hcan : if p.asks = true then canDeleteImage N c.daemon p.img.id force else .ok () with e | u
      · refine Avoids.fail (P := fun _ => True) (fun he => ?_) c trivial
        subst he
        split at hcan
        · unfold canDeleteImage at hcan
          split at hcan
          · cases hcan
          · exact forM_ne_error (fun c _ => checkContainer_ne_endless hforest.acyclic) hcan
        · cases hcan
      · have hskip : ∀ {P : Call → Prop}, Avoids Err.endless P (pure ()) fun _ _ => True :=
          Avoids.pure _ fun _ _ => trivial
        have huntag := @untag_keeps N O _ (hasGraph_tagFree c.daemon.graph) p.repoAndTags
        refine ((Avoids.mapError nofun huntag).bind fun _ => ?_) c rfl
        refine Avoids.read_bind fun tags => ?_
        split
        · split
          · have hremove := @removeImage_avoids N c.daemon.graph p.img hmem
            refine (fun c' hc' => ((hremove.bind fun _ => ?_) c' hc'.1))
            split
            · have hnext : Avoids .endless (fun c' => HasGraph (c.daemon.graph.remove p.img.id) c'.daemon)
                  (imgDeleteHelper N O force noprune n p.img.parent false) fun _ _ => True := by
                intro c' hc'
                have hless := remove_length_lt hmem
                refine ih p.img.parent c' ⟨?_, ?_⟩
                · rw [hc']
                  exact hforest.remove _
                · rw [hc']
                  omega
              split
              · exact hnext
              · exact .ignoreError fun _ _ => trivial
            · exact hskip
          · exact hskip
        · exact hskip

end Returns

/-! ## What is deleted unasked is gone -/

section Lost

variable {N : Naming} {O : MapOrder} {d₀ : Daemon} {name : Str} {force noprune : Bool} {T : Image}

/-- Taking a collection apart gives back what was collected. -/
theorem pairs_addTag (repo tag : Str) (m : List (Str × List Str)) :
    (pairs (addTag repo tag m)).Perm ((repo, tag) :: pairs m) := by
  induction m with
  | nil => exact List.Perm.refl _
  | cons x m ih =>
    obtain ⟨r, tags⟩ := x
    rw [addTag]
    split
    next hr =>
      subst hr
      show ((tags ++ [tag]).map (fun t => (r, t)) ++ pairs m).Perm
        ((r, tag) :: (tags.map (fun t => (r, t)) ++ pairs m))
      rw [map_append, append_assoc]
      exact perm_middle
    next =>
      show (tags.map (fun t => (r, t)) ++ pairs (addTag repo tag m)).Perm
        ((repo, tag) :: (tags.map (fun t => (r, t)) ++ pairs m))
      exact (ih.append_left _).trans perm_middle

theorem pairs_foldl_addParsed (ps : List (Str × Str)) (m : List (Str × List Str)) :
    (pairs (ps.foldl addParsed m)).Perm (ps.filter (·.2 ≠ []) ++ pairs m) := by
  induction ps generalizing m with
  | nil => exact List.Perm.refl _
  | cons x ps ih =>
    rw [foldl_cons, addParsed]
    refine (ih _).trans ?_
    split
    next hx => rw [filter_cons_of_neg (by simpa using hx)]
    next hx =>
      rw [filter_cons_of_pos (by simpa using hx)]
      exact ((pairs_addTag x.1 x.2 m).append_left _).trans perm_middle

/-- What is untagged for a collection: the pairs with a tag. -/
theorem pairs_grouped (ps : List (Str × Str)) : (pairs (grouped ps)).Perm (ps.filter (·.2 ≠ [])) := by
  simpa [pairs, grouped] using pairs_foldl_addParsed ps []

/-- The name of a reference. -/
def refName (r : Ref) : Str × Str := (r.repo, r.tag)

/-- There is a reference with the name, a tag in a repository under its local name. -/
def Present (N : Naming) (refs : List Ref) (x : Str × Str) : Prop :=
  ∃ r ∈ refs, refName r = x ∧ N.normalizeLocalName r.repo = r.repo ∧ r.tag ≠ []

/-- The graph and the references of the daemon. -/
def Has (g : Graph) (refs : List Ref) (d : Daemon) : Prop := d.graph = g ∧ d.repositories.refs = refs

variable {g : Graph} {refs : List Ref}

/-- One reference goes, and only it. -/
theorem delete_refName {t : Repositories} {r : Ref} (hrepo : N.normalizeLocalName r.repo = r.repo) (htag : r.tag ≠ [])
    (hr : r ∈ t.refs) : ∃ t', Repositories.delete N r.repo r.tag t = (.ok true, t') ∧
      t'.refs = t.refs.filter fun r' => refName r' ≠ refName r := by
  refine ⟨_, Repositories.delete_of_mem hr hrepo htag, filter_congr fun r' _ => ?_⟩
  simp [refName]

theorem untagOne_spec {r : Ref} (hrepo : N.normalizeLocalName r.repo = r.repo) (htag : r.tag ≠ []) (hr : r ∈ refs) :
    Triple (On (Has g refs)) (untagOne N (refName r))
      (fun _ => On (Has g (refs.filter fun r' => refName r' ≠ refName r))) (fun _ => False) := by
  refine .of_run fun c ⟨hg, hrefs⟩ => ?_
  subst hrefs
  obtain ⟨t', hdelete, hleft⟩ := delete_refName hrepo htag hr
  have hrun : onTags (Repositories.delete N r.repo r.tag) c =
      (.ok true, { c with daemon := { c.daemon with repositories := t' } }) := by
    rw [onTags, hdelete]
  exact ⟨(), _, bind_run_ok hrun, hg, hleft⟩

/-- A program that takes away one reference takes away those that are there, one after the other. -/
theorem forM_present {σ ε : Type} {m : Str × Str → Proc σ ε Unit} {H : List Ref → σ → Prop}
    (hone : ∀ refs r, N.normalizeLocalName r.repo = r.repo → r.tag ≠ [] → r ∈ refs → Triple (H refs) (m (refName r))
      (fun _ => H (refs.filter fun r' => refName r' ≠ refName r)) fun _ => False)
    {xs : List (Str × Str)} (hnodup : xs.Nodup) : ∀ {refs : List Ref}, (∀ x ∈ xs, Present N refs x) →
      Triple (H refs) (xs.forM m) (fun _ => H (refs.filter fun r => refName r ∉ xs)) fun _ => False := by
  induction xs with
  | nil =>
    intro refs _
    refine .pure _ fun c hc => ?_
    rwa [filter_eq_self.mpr (by simp)]
  | cons x xs ih =>
    intro refs hpresent
    obtain ⟨hx, hxs⟩ := nodup_cons.mp hnodup
    obtain ⟨r, hr, rfl, hrepo, htag⟩ := hpresent x (by simp)
    refine (hone refs r hrepo htag hr).bind fun _ => ?_
    have hrest : ∀ y ∈ xs, Present N (refs.filter fun r' => refName r' ≠ refName r) y := by
      intro y hy
      obtain ⟨r', hr', hname, hok⟩ := hpresent y (by simp [hy])
      refine ⟨r', mem_filter.mpr ⟨hr', decide_eq_true fun heq => hx ?_⟩, hname, hok⟩
      rwa [← heq, hname]
    have hfilter : ((refs.filter fun r' => refName r' ≠ refName r).filter fun r' => refName r' ∉ xs) =
        refs.filter fun r' => refName r' ∉ refName r :: xs := by
      rw [filter_filter]
      apply filter_congr
      intro r' _
      simp [Bool.and_comm]
    rw [← hfilter]
    exact ih hxs hrest

/-- The references of an image, read back from their texts. -/
theorem parsed_byID (hvalid : ValidRefs N d₀.repositories) (id : Str) :
    (((d₀.repositories.byID id).map parseRepositoryTag).Perm
      ((d₀.repositories.refs.filter fun r => r.id = id).map refName)) := by
  have hperm : (d₀.repositories.byID id).Perm
      ((d₀.repositories.refs.filter fun r => r.id = id).map Ref.text) := perm_insertionSort _ _
  refine (hperm.map _).trans (List.Perm.of_eq ?_)
  rw [map_map]
  apply map_congr_left
  intro r hr
  exact parseRepositoryTag_imageReference (hvalid r (mem_of_mem_filter hr)).1

/-- An image that is not in the graph. -/
def Gone (T : Image) (d : Daemon) : Prop := T ∉ d.graph.images

/-- An image without references is removed. -/
theorem removeImage_gone (hT : T ∈ g.images) (hrefs : ∀ r ∈ refs, r.id ≠ T.id) :
    Triple (On (Has g refs)) (removeImage N T.id) (fun _ => On (Gone T)) (fun _ => False) := by
  have htags : Triple (On (Has g refs)) (onTags (Repositories.deleteAll N T.id))
      (fun _ => On (HasGraph g)) (fun _ => False) := by
    refine .of_run fun c hc => ?_
    have hnil : c.daemon.repositories.byID T.id = [] := by
      rw [Repositories.byID_eq_nil, hc.2]
      exact hrefs
    exact ⟨(), c, by rw [onTags, Repositories.deleteAll_nil hnil], hc.1⟩
  refine htags.mapError.bind fun _ => ?_
  refine (onGraph_delete hT).mapError.bind fun _ => ?_
  refine Triple.iff_ends.mpr fun c hc hmem => ?_
  change T ∈ c.daemon.graph.images at hmem
  rw [hc] at hmem
  exact (mem_remove.mp hmem).2 rfl

/-- **What is deleted unasked is gone.** -/
theorem gone_of_unasked (hvalid : ValidRefs N d₀.repositories) (hT : Unasked N d₀ name force T)
    (n : Nat) (list : List Deleted) :
    Gone T (imgDeleteHelper N O force noprune (n + 1) name true ⟨d₀, list⟩).2.daemon := by
  have hmem := Repositories.mem_of_lookupImage hT.found
  have hparsed := parsed_byID hvalid T.id
  have hnames : ∀ x ∈ (d₀.repositories.byID T.id).map parseRepositoryTag, Present N d₀.repositories.refs x := by
    intro x hx
    obtain ⟨r, hr, rfl⟩ := mem_map.mp (hparsed.mem_iff.mp hx)
    have hr' := mem_of_mem_filter hr
    obtain ⟨-, -, htag, hnorm, -⟩ := hvalid r hr'
    exact ⟨r, hr', rfl, hnorm, htag⟩
  have hforce : force := by
    refine hT.forced.resolve_right ?_
    rintro ⟨r, hr, hnil⟩
    obtain ⟨r', hr', hname, -⟩ := hnames _ (mem_map_of_mem hr)
    apply (hvalid r' hr').2.1
    rw [← hnil, ← hname]
    rfl
  subst hforce
  have hrepo : repoNameOf name T = [] := by
    unfold repoNameOf
    split
    next => rfl
    next hnot => exact hT.byID.resolve_left hnot
  obtain ⟨repoName, hcollect⟩ := @collect_forced name true [] [] (d₀.repositories.byID T.id)
  have hplan : plan N d₀ name true true = .ok ⟨T, repoName, true, d₀.repositories.byID T.id,
      grouped ((d₀.repositories.byID T.id).map parseRepositoryTag), []⟩ := by
    rw [plan, if_neg hT.named, hT.found]
    simp only [hrepo, if_true, hcollect, hT.childless]
    rfl
  set names := (d₀.repositories.byID T.id).map parseRepositoryTag
  obtain ⟨r₁, hr₁, r₂, hr₂, ht₁, ht₂, hdiff⟩ := hT.spread
  -- the guard is not asked
  have hgroups : 1 < (grouped names).length :=
    one_lt_length_grouped.mpr
      ⟨_, mem_map_of_mem hr₁, _, mem_map_of_mem hr₂, ht₁, ht₂, hdiff⟩
  have hmany : 1 < (d₀.repositories.byID T.id).length := by
    have hne : r₁ ≠ r₂ := fun h => hdiff (by rw [h])
    have hcard := Finset.one_lt_card.mpr ⟨r₁, mem_toFinset.mpr hr₁, r₂, mem_toFinset.mpr hr₂, hne⟩
    exact hcard.trans_le (toFinset_card_le _)
  rw [imgDeleteHelper, read_bind_run]
  simp only [hplan, Plan.asks, Bool.true_eq_false, false_and, if_false, Nat.not_le.mpr hmany,
    Nat.not_le.mpr hgroups, decide_false, Bool.false_and, Bool.or_false, Bool.false_eq_true]
  -- all references go
  have hpairs : (pairs (O.order (grouped names))).Perm
      names := by
    refine ((O.perm _).flatMap_right _).trans ((pairs_grouped names).trans (.of_eq ?_))
    refine filter_eq_self.mpr fun x hx => ?_
    obtain ⟨r, -, rfl, -, htag⟩ := hnames x hx
    exact decide_eq_true htag
  have hnodup : (pairs (O.order (grouped names))).Nodup := by
    rw [hpairs.nodup_iff, hparsed.nodup_iff]
    exact d₀.repositories.nodup.sublist (filter_sublist.map _)
  have huntag := forM_present (N := N) (fun _ _ => untagOne_spec (g := d₀.graph)) hnodup
    fun x hx => hnames x (hpairs.mem_iff.mp hx)
  have hnone : ∀ r ∈ d₀.repositories.refs.filter fun r =>
      refName r ∉ pairs (O.order (grouped names)),
      r.id ≠ T.id := by
    intro r hr hid
    rw [mem_filter, decide_eq_true_iff] at hr
    apply hr.2
    rw [hpairs.mem_iff, hparsed.mem_iff]
    exact mem_map_of_mem (mem_filter.mpr ⟨hr.1, by simpa using hid⟩)
  have hnext : Preserves (On (Gone T)) (imgDeleteHelper N O true noprune n T.parent false) := by
    apply imgDeleteHelper_keeps (fun _ _ h _ => h) (fun _ _ _ _ => trivial)
    exact fun d X hd _ hmem => hd (mem_remove.mp hmem).1
  -- so the image is removed, and what follows does not bring it back
  have hwhole : Triple (On (Has d₀.graph d₀.repositories.refs))
      (act N O noprune true ⟨T, repoName, true, d₀.repositories.byID T.id,
        grouped names, []⟩
        (imgDeleteHelper N O true noprune n T.parent false))
      (fun _ => On (Gone T)) (On (Gone T)) := by
    refine (huntag.mapError.mono (fun _ h => h) (fun _ _ h => h) fun _ h => h.elim).bind fun _ => ?_
    refine .read_bind_of_eq (v := []) (fun c hc => ?_) ?_
    · rw [Repositories.byID_eq_nil, hc.2]
      exact hnone
    rw [if_pos (.inr rfl), if_pos rfl]
    refine ((removeImage_gone hmem hnone).mono (fun _ h => h) (fun _ _ h => h) fun _ h => h.elim).bind fun _ => ?_
    split
    · exact hnext
    · exact .pure _ fun _ h => h
  exact hwhole.snd ⟨rfl, rfl⟩

end Lost

/-! ## The theorem -/

section Spares

variable {N : Naming} {O : MapOrder} {d : Daemon} {name : Str} {force noprune : Bool}

theorem imageDelete_daemon (d : Daemon) : (imageDelete N O name force noprune d).2 =
    (imgDeleteHelper N O force noprune (d.graph.images.length + 1) name true ⟨d, []⟩).2.daemon := by
  unfold imageDelete
  rcases imgDeleteHelper N O force noprune (d.graph.images.length + 1) name true ⟨d, []⟩ with ⟨e | u, c⟩
  · rfl
  · dsimp only
    split <;> rfl

theorem unshadowed_of_validRefs (h : ValidRefs N d.repositories) : Unshadowed d := by
  intro c _ z hz _ r hr hrepo
  have hid := (h r hr).2.2.2.2
  rw [hrepo, d.graph.ids z hz] at hid
  cases hid

/-- **When a call spares what is in use.** On a forest of images every call returns. If no repository bears
the id of a container's image as its name, a call that does not delete an image in use unasked loses none.
Where the references are as the registry accepts them, no other call spares the images in use. -/
theorem imageDelete_spares_iff (N : Naming) (O : MapOrder) (d : Daemon) (hF : d.graph.Forest)
    (name : Str) (force noprune : Bool) :
    (imageDelete N O name force noprune d).1 ≠ .error .endless ∧
      (Unshadowed d → (∀ T, Unasked N d name force T → ¬ InUse d force T) →
        Spares d (imageDelete N O name force noprune d).2 force) ∧
      (ValidRefs N d.repositories →
        (Spares d (imageDelete N O name force noprune d).2 force ↔
          ∀ T, Unasked N d name force T → ¬ InUse d force T)) := by
  have hsafe : Unshadowed d → (∀ T, Unasked N d name force T → ¬ InUse d force T) →
      Spares d (imageDelete N O name force noprune d).2 force := by
    intro hU hK
    rw [imageDelete_daemon]
    exact (imgDeleteHelper_safe hF hU hK _ []).spared
  refine ⟨?_, hsafe, fun hvalid => ⟨fun hspares T hT => ?_, hsafe (unshadowed_of_validRefs hvalid)⟩⟩
  · have hreturns := (@imgDeleteHelper_returns N O force noprune true (d.graph.images.length + 1) name
      ⟨d, []⟩ ⟨hF, by simp⟩).1
    unfold imageDelete
    rcases hrun : imgDeleteHelper N O force noprune (d.graph.images.length + 1) name true ⟨d, []⟩ with ⟨e | u, c⟩
    · rw [hrun] at hreturns
      simpa using hreturns
    · dsimp only
      split <;> nofun
  · apply hspares T (Repositories.mem_of_lookupImage hT.found)
    rw [imageDelete_daemon]
    exact gone_of_unasked hvalid hT _ []

end Spares

/-! ### An image with two names -/

/-- Names that are their own local form. -/
def plainNaming : Naming := ⟨id, fun _ _ => rfl⟩

/-- A map that is read in the order in which it was filled. -/
def plainOrder : MapOrder := ⟨id, fun l => List.Perm.refl l⟩

/-- An image without a parent. -/
def baseImage (c : Char) : Image := ⟨replicate 64 c, []⟩

/-- A running container of an image with a name in each of two repositories. -/
def twoNames : Daemon where
  graph := ⟨[baseImage 'a'], by decide, by decide⟩
  repositories := ⟨[⟨"x".toList, defaultTag, (baseImage 'a').id⟩,
    ⟨"y".toList, defaultTag, (baseImage 'a').id⟩], by decide⟩
  containers := [⟨"c".toList, (baseImage 'a').id, true⟩]
  held := []

/-- A running container of an image whose id is the name of a repository. -/
def namedById : Daemon where
  graph := ⟨[baseImage 'a', baseImage 'b'], by decide, by decide⟩
  repositories := ⟨[⟨(baseImage 'a').id, defaultTag, (baseImage 'b').id⟩], by decide⟩
  containers := [⟨"c".toList, (baseImage 'a').id, true⟩]
  held := []

theorem twoNames_inUse (force : Bool) : InUse twoNames force (baseImage 'a') :=
  .inr ⟨_, mem_singleton_self _, .inl rfl, _, mem_singleton_self _, rfl, .refl _⟩

/-- Deleting by id: without force the image is spared, with force it is not. -/
theorem imageDelete_twoNames :
    Spares twoNames (imageDelete plainNaming plainOrder (baseImage 'a').id false false twoNames).2 false ∧
      ¬ Spares twoNames (imageDelete plainNaming plainOrder (baseImage 'a').id true false twoNames).2 true := by
  have hforest : twoNames.graph.Forest := by
    refine ⟨by decide, fun _ => 0, fun i hi p hp => ?_⟩
    obtain rfl := mem_singleton.mp hi
    cases hp
  have hvalid : ValidRefs plainNaming twoNames.repositories := by
    intro r hr
    rcases mem_cons.mp hr with rfl | hr
    · exact ⟨⟨by decide, by decide, by decide⟩, by decide, by decide, rfl, by decide⟩
    · obtain rfl := mem_singleton.mp hr
      exact ⟨⟨by decide, by decide, by decide⟩, by decide, by decide, rfl, by decide⟩
  constructor
  · apply ((imageDelete_spares_iff plainNaming plainOrder twoNames hforest _ false false).2.2 hvalid).mpr
    intro T hT
    have hid : T.id = (baseImage 'a').id := by
      rw [mem_singleton.mp (Repositories.mem_of_lookupImage hT.found)]
    have hforced := hT.forced
    rw [hid] at hforced
    exact absurd hforced (by decide)
  · intro hspares
    refine ((imageDelete_spares_iff plainNaming plainOrder twoNames hforest _ true false).2.2
      hvalid).mp hspares (baseImage 'a') ?_ (twoNames_inUse true)
    exact ⟨by decide, by decide, .inl (infix_refl _), by decide, .inl rfl, by decide⟩

/-- Two images of running containers that are lost: one deleted by its id with force, one by the
beginning of its id where a repository bears the id. -/
theorem imageDelete_loses :
    (InUse twoNames true (baseImage 'a') ∧ baseImage 'a' ∈ twoNames.graph.images ∧
      baseImage 'a' ∉ (imageDelete plainNaming plainOrder (baseImage 'a').id true false twoNames).2.graph.images) ∧
      InUse namedById false (baseImage 'a') ∧ baseImage 'a' ∈ namedById.graph.images ∧
      baseImage 'a' ∉ (imageDelete plainNaming plainOrder "aaaa".toList false false namedById).2.graph.images := by
  refine ⟨⟨twoNames_inUse true, by decide, by decide⟩, ?_, by decide, by decide⟩
  exact .inr ⟨_, mem_singleton_self _, .inl rfl, _, mem_cons_self, rfl, .refl _⟩

end DockerEngine.Images
