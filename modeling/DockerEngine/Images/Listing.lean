import DockerEngine.Images.Tags
import DockerEngine.Lib.Glob
import DockerEngine.Parsers.Filters

/-!
# Listing images

`TagStore.Images` of `graph/list.go`: one pass over the references of the tag store, which collects the
images they lead to and takes them out of the images to be shown without a name; then those that are
left, if they are asked for.

A reference whose repository the pattern leaves out does not take its image out. With a pattern and a
filter by label together, an image with only such references is shown as one without a name.
`images_classified_iff` says that this is the one way in which the list can be wrong.

The maps of the tag store are ranged over in any order, which is the order of the list of references;
`sort.Sort` is taken as given, of which only is used that it permutes. References hold whole ids, as
`TagStore.Set` writes them. The size of all parents of an image is taken as given, as are the decoder of
filters and the contents of images.
-/

namespace DockerEngine.Images.Listing

open Filepath Filters List GoMap

/-- What an image file says besides the parent. -/
structure ImageData where
  created : Int
  size : Int
  parentsSize : Int
  labels : GoMap Str Str

/-- A graph with a tag store. -/
structure Store where
  graph : Graph
  data : Str → ImageData
  repositories : Repositories
  ids : ∀ r ∈ repositories.refs, validID r.id = true

/-- `ImagesConfig`. -/
structure ImagesConfig where
  filters : Str
  filter : Str
  all : Bool

/-- `types.Image`. -/
structure Shown where
  id : Str
  parentId : Str
  repoTags : List Str
  repoDigests : List Str
  created : Int
  size : Int
  virtualSize : Int
  labels : GoMap Str Str

/-- How a request fails. -/
inductive Err where
  | badFilters
  | invalidFilter (name : Str)
  deriving DecidableEq, Repr

/-- `acceptedImageFilterTags`. -/
def acceptedImageFilterTags : List Str := ["dangling".toList, "label".toList]

/-- The options, as the loops use them. -/
structure Options where
  filter : Str
  all : Bool
  imageFilters : Args

section

variable (o : Options)

/-- Only images without a name are asked for: `dangling=true`. -/
def Options.filtTagged : Bool :=
  !(o.imageFilters.values "dangling".toList).any fun v => v.map Char.toLower = "true".toList

/-- `_, filtLabel = imageFilters["label"]`. -/
def Options.filtLabel : Bool := (o.imageFilters.get "label".toList).isSome

/-- The filter by label. -/
def Options.labelOk (labels : GoMap Str Str) : Bool := o.imageFilters.matchKVList "label".toList labels

/-- The pattern for repositories. A malformed one matches nothing. -/
def Options.repoOk (repoName : Str) : Bool := o.filter = [] || Glob.globMatch o.filter repoName == some true

/-- Images without a name are listed. -/
def Options.listsUntagged : Bool := o.filter = [] || o.filtLabel

end

/-- The checks of the filters. -/
def readConfig (fromParam : Str → Option Args) (config : ImagesConfig) : Except Err Options :=
  match fromParam config.filters with
  | none => .error .badFilters
  | some imageFilters =>
    match imageFilters.keys.find? fun name => name ∉ acceptedImageFilterTags with
    | some name => .error (.invalidFilter name)
    | none => .ok ⟨config.filter, config.all, imageFilters⟩

/-- `graph.Heads`. -/
def heads (g : Graph) : List Image := g.images.filter fun i => g.byParent i.id = []

/-- `allImages`, before the loop. -/
def allImages (s : Store) (o : Options) : List Image :=
  if o.all && o.filtTagged then s.graph.images else heads s.graph

/-- `newImage`. -/
def newImage (s : Store) (i : Image) (repoTags repoDigests : List Str) : Shown where
  id := i.id
  parentId := i.parent
  repoTags := repoTags
  repoDigests := repoDigests
  created := (s.data i.id).created
  size := (s.data i.id).size
  virtualSize := (s.data i.id).parentsSize + (s.data i.id).size
  labels := (s.data i.id).labels

/-- A reference is appended to the tags or to the digests. -/
def Shown.addRef (i : Shown) (r : Ref) : Shown :=
  if digestReference r.tag then { i with repoDigests := i.repoDigests ++ [r.text] }
  else { i with repoTags := i.repoTags ++ [r.text] }

/-- The variables of the loop over the references. -/
structure LoopState where
  allImages : List Image
  lookup : GoMap Str Shown

/-- One round of the loop. -/
def step (s : Store) (o : Options) (st : LoopState) (r : Ref) : LoopState :=
  if !o.repoOk r.repo then st
  else
    match s.graph.get r.id with
    | .error _ => st
    | .ok image =>
      match st.lookup.get r.id with
      | some lImage =>
        if o.filtTagged then { st with lookup := st.lookup.set r.id (lImage.addRef r) } else st
      | none =>
        let st := { st with allImages := st.allImages.filter fun i => i.id ≠ r.id }
        if !o.labelOk (s.data image.id).labels then st
        else if o.filtTagged then
          { st with lookup := st.lookup.set r.id ((newImage s image [] []).addRef r) }
        else st

/-- "<none>:<none>". -/
def noTag : Str := "<none>:<none>".toList

/-- "<none>@<none>". -/
def noDigest : Str := "<none>@<none>".toList

/-- The images that are shown, in the order in which they are collected. -/
def collected (s : Store) (o : Options) : List Shown :=
  let st := s.repositories.refs.foldl (step s o) ⟨allImages s o, .empty⟩
  st.lookup.entries.map Prod.snd ++
    if o.listsUntagged then
      (st.allImages.filter fun i => o.labelOk (s.data i.id).labels).map fun i =>
        newImage s i [noTag] [noDigest]
    else []

/-- `Images`, with `sort.Sort(sort.Reverse(ByCreated(images)))` as `sort`. -/
def images (sort : List Shown → List Shown) (fromParam : Str → Option Args) (s : Store)
    (config : ImagesConfig) : Except Err (List Shown) :=
  (readConfig fromParam config).map fun o => sort (collected s o)

/-! ## What the loop collects -/

section Loop

variable {s : Store} {o : Options} {done : List Ref}

/-- The references of an image that the pattern lets through. -/
def refsOf (o : Options) (refs : List Ref) (id : Str) : List Ref :=
  refs.filter fun r => r.id = id ∧ o.repoOk r.repo = true

/-- An image with its references. -/
def withRefs (s : Store) (i : Image) (rs : List Ref) : Shown :=
  newImage s i ((rs.filter fun r => !digestReference r.tag).map Ref.text)
    ((rs.filter fun r => digestReference r.tag).map Ref.text)

/-- What holds after the references `done`: the images with references among them are out, and those
that pass the filter by label are in the map with these references, if they are asked for. -/
structure Collects (s : Store) (o : Options) (done : List Ref) (st : LoopState) : Prop where
  left : ∀ i ∈ s.graph.images, i ∈ st.allImages ↔ i ∈ allImages s o ∧ refsOf o done i.id = []
  sub : st.allImages.Sublist (allImages s o)
  found : ∀ i ∈ s.graph.images, st.lookup.get i.id =
    if refsOf o done i.id ≠ [] ∧ o.labelOk (s.data i.id).labels = true ∧ o.filtTagged = true then
      some (withRefs s i (refsOf o done i.id)) else none
  keys : ∀ id ∈ st.lookup.keys, ∃ i ∈ s.graph.images, i.id = id

theorem refsOf_snoc (o : Options) (done : List Ref) (r : Ref) (id : Str) :
    refsOf o (done ++ [r]) id = refsOf o done id ++ if r.id = id ∧ o.repoOk r.repo = true then [r] else [] := by
  rw [refsOf, filter_append, refsOf]
  congr 1
  by_cases h : r.id = id ∧ o.repoOk r.repo
  · simp [h]
  · simp [h]

theorem withRefs_snoc (s : Store) (i : Image) (rs : List Ref) (r : Ref) :
    withRefs s i (rs ++ [r]) = (withRefs s i rs).addRef r := by
  rw [withRefs, Shown.addRef, filter_append, filter_append]
  cases hd : digestReference r.tag <;> simp [hd, withRefs, newImage]

variable {st : LoopState} {r : Ref}

section

variable (h : Collects s o done st)
include h

/-- A reference that is passed over. -/
theorem Collects.skip (hr : ∀ i ∈ s.graph.images, ¬ (r.id = i.id ∧ o.repoOk r.repo)) :
    Collects s o (done ++ [r]) st where
  left i hi := by rw [h.left i hi, refsOf_snoc, if_neg (hr i hi), append_nil]
  sub := h.sub
  found i hi := by rw [h.found i hi, refsOf_snoc, if_neg (hr i hi), append_nil]
  keys := h.keys

/-- A reference of `image`, which is counted. -/
theorem Collects.take {st' : LoopState}
    {image : Image} (himage : image ∈ s.graph.images) (hid : r.id = image.id)
    (hrepo : o.repoOk r.repo) (hout : image ∉ st'.allImages)
    (hrest : ∀ i ∈ s.graph.images, i ≠ image → (i ∈ st'.allImages ↔ i ∈ st.allImages))
    (hsub : st'.allImages.Sublist st.allImages)
    (hkept : ∀ id, id ≠ image.id → st'.lookup.get id = st.lookup.get id)
    (hnew : st'.lookup.get image.id = if o.labelOk (s.data image.id).labels ∧ o.filtTagged
      then some (withRefs s image (refsOf o (done ++ [r]) image.id)) else none) :
    Collects s o (done ++ [r]) st' := by
  have hself : refsOf o (done ++ [r]) image.id = refsOf o done image.id ++ [r] := by
    rw [refsOf_snoc, if_pos ⟨hid, hrepo⟩]
  have hother : ∀ i ∈ s.graph.images, i ≠ image → refsOf o (done ++ [r]) i.id = refsOf o done i.id := by
    intro i hi hne
    rw [refsOf_snoc, if_neg, append_nil]
    exact fun hr => hne (s.graph.eq_of_id hi himage (hr.1.symm.trans hid))
  refine ⟨fun i hi => ?_, hsub.trans h.sub, fun i hi => ?_, fun id hmem => ?_⟩
  · by_cases hne : i = image
    · subst hne
      simp [hself, hout]
    · rw [hrest i hi hne, h.left i hi, hother i hi hne]
  · by_cases hne : i = image
    · subst hne
      rw [hnew]
      simp [hself]
    · rw [hkept _ fun he => hne (s.graph.eq_of_id hi himage he), h.found i hi, hother i hi hne]
  · by_cases hne : id = image.id
    · exact ⟨image, himage, hne.symm⟩
    · rw [GoMap.mem_keys, hkept id hne, ← GoMap.mem_keys] at hmem
      exact h.keys id hmem

theorem step_collects
    (hid : validID r.id) : Collects s o (done ++ [r]) (step s o st r) := by
  unfold step
  by_cases hrepo : o.repoOk r.repo
  · rw [if_neg (by simp [hrepo])]
    cases hget : s.graph.get r.id with
    | error e =>
      refine h.skip fun i hi hr => ?_
      rw [hr.1, s.graph.get_id hi] at hget
      cases hget
    | ok image =>
      obtain ⟨himage, hbegins⟩ := Graph.mem_of_get hget
      have heq : r.id = image.id := validID_begins hid (s.graph.ids image himage) hbegins
      have hself : refsOf o (done ++ [r]) image.id = refsOf o done image.id ++ [r] := by
        rw [refsOf_snoc, if_pos ⟨heq, hrepo⟩]
      have hfound := h.found image himage
      simp only [heq]
      cases hlook : st.lookup.get image.id with
      | some lImage =>
        -- a reference was counted before, so the image is out already
        rw [hlook] at hfound
        obtain ⟨⟨hrefs, hlabel, htagged⟩, hl⟩ := Option.some_eq_ite_none_right.mp hfound
        dsimp only
        rw [if_pos htagged]
        refine h.take himage heq hrepo ?_ (fun _ _ _ => Iff.rfl) (List.Sublist.refl _)
          (fun id hne => get_set_ne _ hne _) ?_
        · exact fun hmem => hrefs ((h.left image himage).mp hmem).2
        · rw [get_set_self, if_pos ⟨hlabel, htagged⟩, hself, withRefs_snoc, Option.some.inj hl]
      | none =>
        rw [hlook] at hfound
        have hout : image ∉ st.allImages.filter fun i => i.id ≠ image.id := by simp
        have hrest : ∀ i ∈ s.graph.images, i ≠ image →
            (i ∈ (st.allImages.filter fun i => i.id ≠ image.id) ↔ i ∈ st.allImages) := by
          intro i hi hne
          have : i.id ≠ image.id := fun he => hne (s.graph.eq_of_id hi himage he)
          simp [this]
        by_cases hlabel : o.labelOk (s.data image.id).labels
        · rw [if_neg (by simp [hlabel])]
          by_cases htagged : o.filtTagged
          · have hrefs : refsOf o done image.id = [] := by
              by_contra hne
              rw [if_pos ⟨hne, hlabel, htagged⟩] at hfound
              cases hfound
            rw [if_pos htagged]
            refine h.take himage heq hrepo hout hrest filter_sublist (fun id hne => get_set_ne _ hne _) ?_
            rw [get_set_self, if_pos ⟨hlabel, htagged⟩, hself, hrefs, withRefs_snoc]
            rfl
          · rw [if_neg htagged]
            refine h.take himage heq hrepo hout hrest filter_sublist (fun _ _ => rfl) ?_
            rw [if_neg fun hc => htagged hc.2]
            exact hlook
        · rw [if_pos (by simp [hlabel])]
          refine h.take himage heq hrepo hout hrest filter_sublist (fun _ _ => rfl) ?_
          rw [if_neg fun hc => hlabel hc.1]
          exact hlook
  · rw [if_pos (by simp [hrepo])]
    exact h.skip fun i _ hr => hrepo hr.2

end

/-- The run lemma of the loop. -/
theorem foldl_collects {refs done : List Ref} (h : Collects s o done st) (hids : ∀ r ∈ refs, validID r.id) :
    Collects s o (done ++ refs) (refs.foldl (step s o) st) := by
  induction refs generalizing done st with
  | nil => simpa using h
  | cons r refs ih =>
    have hstep := step_collects h (hids r mem_cons_self)
    simpa using ih hstep fun r' hr' => hids r' (mem_cons_of_mem r hr')

theorem init_collects (s : Store) (o : Options) : Collects s o [] ⟨allImages s o, .empty⟩ where
  left i _ := by simp [refsOf]
  sub := List.Sublist.refl _
  found i _ := by simp [refsOf, GoMap.empty, GoMap.get]
  keys id hmem := by simp [GoMap.empty, GoMap.keys] at hmem

theorem allImages_sublist (s : Store) (o : Options) : (allImages s o).Sublist s.graph.images := by
  unfold allImages heads
  split
  · exact List.Sublist.refl _
  · exact filter_sublist

/-- The entries that the listing can have. -/
theorem mem_collected {x : Shown} : x ∈ collected s o ↔
    (∃ i ∈ s.graph.images, (refsOf o s.repositories.refs i.id ≠ [] ∧
      o.labelOk (s.data i.id).labels ∧ o.filtTagged) ∧
      x = withRefs s i (refsOf o s.repositories.refs i.id)) ∨
    (∃ i ∈ allImages s o, (refsOf o s.repositories.refs i.id = [] ∧
      o.labelOk (s.data i.id).labels ∧ o.listsUntagged) ∧
      x = newImage s i [noTag] [noDigest]) := by
  have h := foldl_collects (init_collects s o) s.ids
  rw [nil_append] at h
  rw [collected, mem_append]
  refine or_congr ⟨fun hx => ?_, ?_⟩ ⟨fun hx => ?_, ?_⟩
  · obtain ⟨⟨id, y⟩, hmem, rfl⟩ := mem_map.mp hx
    have hget := GoMap.mem_iff_get.mp hmem
    obtain ⟨i, hi, rfl⟩ := h.keys id (mem_map_of_mem hmem)
    rw [h.found i hi] at hget
    obtain ⟨hc, hy⟩ := Option.ite_none_right_eq_some.mp hget
    exact ⟨i, hi, hc, (Option.some.inj hy).symm⟩
  · rintro ⟨i, hi, hc, rfl⟩
    have hget := h.found i hi
    rw [if_pos hc] at hget
    exact mem_map.mpr ⟨_, mem_iff_get.mpr hget, rfl⟩
  · split at hx
    · obtain ⟨i, hi, rfl⟩ := mem_map.mp hx
      obtain ⟨hleft, hlabel⟩ := mem_filter.mp hi
      have himage : i ∈ s.graph.images := (h.sub.trans (allImages_sublist s o)).subset hleft
      obtain ⟨hall, hrefs⟩ := (h.left i himage).mp hleft
      exact ⟨i, hall, ⟨hrefs, hlabel, ‹_›⟩, rfl⟩
    · cases hx
  · rintro ⟨i, hi, ⟨hrefs, hlabel, hlists⟩, rfl⟩
    have himage : i ∈ s.graph.images := (allImages_sublist s o).subset hi
    rw [if_pos hlists]
    exact mem_map.mpr ⟨i, mem_filter.mpr ⟨(h.left i himage).mpr ⟨hi, hrefs⟩, hlabel⟩, rfl⟩

/-- No image is listed twice. -/
theorem collected_nodup (s : Store) (o : Options) : ((collected s o).map Shown.id).Nodup := by
  have h := foldl_collects (init_collects s o) s.ids
  rw [nil_append] at h
  set st := s.repositories.refs.foldl (step s o) ⟨allImages s o, .empty⟩ with hst
  -- the ids of the first part are the keys of the map, those of the second the images left
  have hfirst : (st.lookup.entries.map Prod.snd).map Shown.id = st.lookup.keys := by
    rw [map_map, GoMap.keys]
    refine map_congr_left fun x hmem => ?_
    obtain ⟨id, y⟩ := x
    have hget := GoMap.mem_iff_get.mp hmem
    obtain ⟨i, hi, rfl⟩ := h.keys id (mem_map_of_mem hmem)
    rw [h.found i hi] at hget
    obtain ⟨-, hy⟩ := Option.ite_none_right_eq_some.mp hget
    rw [Function.comp_apply, ← Option.some.inj hy]
    rfl
  have hleft : (st.allImages.map Image.id).Nodup :=
    ((h.sub.trans (allImages_sublist s o)).map Image.id).nodup s.graph.nodup
  rw [collected, ← hst, map_append, hfirst, nodup_append]
  refine ⟨st.lookup.nodup, ?_, ?_⟩
  · split
    · rw [map_map]
      exact (filter_sublist.map Image.id).nodup hleft
    · exact nodup_nil
  · intro id hid id' hid' heq
    subst heq
    split at hid'
    · rw [map_map] at hid'
      obtain ⟨i, hi, rfl⟩ := mem_map.mp hid'
      have himem := (mem_filter.mp hi).1
      have himage : i ∈ s.graph.images := (h.sub.trans (allImages_sublist s o)).subset himem
      obtain ⟨y, hy⟩ := mem_keys.mp hid
      have hfound := Option.ite_none_right_eq_some.mp ((h.found i himage).symm.trans hy)
      exact absurd ((h.left i himage).mp himem).2 hfound.1.1
    · cases hid'

end Loop

/-! ## The classification -/

/-- An image that is shown without a name. -/
def Shown.untagged (x : Shown) : Prop := x.repoTags = [noTag] ∧ x.repoDigests = [noDigest]

/-- The references of an image that match the pattern: the digests, or the others. -/
def names (s : Store) (o : Options) (id : Str) (digests : Bool) : List Str :=
  (s.repositories.refs.filter fun r => r.id = id ∧ o.repoOk r.repo = true ∧
    digestReference r.tag = digests).map Ref.text

/-- The images that the options ask for, with or without a name. -/
def Asked (s : Store) (o : Options) (i : Image) : Prop :=
  o.labelOk (s.data i.id).labels = true ∧ (i ∈ heads s.graph ∨ o.all = true ∧ o.filtTagged = true)

/-- What the list has to be: no image twice; without a name exactly the images that no reference leads
to, as far as the options ask for them; every other image with its references that match the pattern. -/
structure Classified (s : Store) (o : Options) (res : List Shown) : Prop where
  once : (res.map Shown.id).Nodup
  untagged : ∀ i ∈ s.graph.images, (∃ x ∈ res, x.id = i.id ∧ x.untagged) ↔
    (∀ r ∈ s.repositories.refs, r.id ≠ i.id) ∧ Asked s o i ∧ o.listsUntagged = true
  named : ∀ x ∈ res, ¬ x.untagged → x.repoTags.Perm (names s o x.id false) ∧ x.repoDigests.Perm (names s o x.id true)

/-- With a pattern and a filter by label, each image that could be shown without a name and has a
reference has one that the pattern lets through. -/
def Covered (s : Store) (o : Options) : Prop :=
  o.filter ≠ [] → o.filtLabel = true → ∀ i ∈ s.graph.images, Asked s o i →
    (∃ r ∈ s.repositories.refs, r.id = i.id) → ∃ r ∈ s.repositories.refs, r.id = i.id ∧ o.repoOk r.repo = true

section Classification

variable {s : Store} {o : Options}

variable {i : Image}

theorem mem_allImages (hi : i ∈ s.graph.images) :
    i ∈ allImages s o ↔ i ∈ heads s.graph ∨ o.all ∧ o.filtTagged := by
  unfold allImages
  split
  next h => simp_all
  next h => simp_all

/-- A reference is never the text that stands for no digest: that has no colon. -/
theorem withRefs_not_untagged (s : Store) (i : Image) (rs : List Ref) : ¬ (withRefs s i rs).untagged := by
  rintro ⟨-, hdigests⟩
  have hmem : noDigest ∈ (withRefs s i rs).repoDigests := by
    rw [hdigests]
    exact mem_singleton_self _
  obtain ⟨r, hr, htext⟩ := mem_map.mp hmem
  have hdigest : digestReference r.tag := (mem_filter.mp hr).2
  have hcolon : ':' ∈ r.text := by
    rw [Ref.text, imageReference, if_pos hdigest]
    have : ':' ∈ r.tag := contains_iff_mem.mp hdigest
    simp [this]
  rw [htext] at hcolon
  revert hcolon
  decide

theorem refsOf_eq_nil {refs : List Ref} {id : Str} :
    refsOf o refs id = [] ↔ ¬ ∃ r ∈ refs, r.id = id ∧ o.repoOk r.repo := by
  simp [refsOf]

theorem withRefs_names (i : Image) :
    (withRefs s i (refsOf o s.repositories.refs i.id)).repoTags = names s o i.id false ∧
      (withRefs s i (refsOf o s.repositories.refs i.id)).repoDigests = names s o i.id true := by
  have hfilter : ∀ (b : Bool) (p : Ref → Bool), (∀ r, p r ↔ digestReference r.tag = b) →
      ((refsOf o s.repositories.refs i.id).filter p).map Ref.text = names s o i.id b := by
    intro b p hp
    rw [refsOf, filter_filter, names]
    congr 1
    refine filter_congr fun r _ => ?_
    rw [Bool.eq_iff_iff]
    simp [hp]
    tauto
  exact ⟨hfilter false _ fun r => by simp, hfilter true _ fun r => Iff.rfl⟩

/-- The entries without a name, by the images they are for. -/
theorem untagged_collected (hi : i ∈ s.graph.images) :
    (∃ x ∈ collected s o, x.id = i.id ∧ x.untagged) ↔
      refsOf o s.repositories.refs i.id = [] ∧ Asked s o i ∧ o.listsUntagged := by
  constructor
  · rintro ⟨x, hx, hid, huntagged⟩
    obtain ⟨j, -, -, rfl⟩ | ⟨j, hj, ⟨hrefs, hlabel, hlists⟩, rfl⟩ := mem_collected.mp hx
    · exact absurd huntagged (withRefs_not_untagged s j _)
    · have hji : j = i := s.graph.eq_of_id ((allImages_sublist s o).subset hj) hi hid
      subst hji
      exact ⟨hrefs, ⟨hlabel, (mem_allImages hi).mp hj⟩, hlists⟩
  · rintro ⟨hrefs, ⟨hlabel, hasked⟩, hlists⟩
    refine ⟨newImage s i [noTag] [noDigest], mem_collected.mpr (.inr ?_), rfl, rfl, rfl⟩
    exact ⟨i, (mem_allImages hi).mpr hasked, ⟨hrefs, hlabel, hlists⟩, rfl⟩

theorem Covered.no_refs (h : Covered s o) (hi : i ∈ s.graph.images) (hasked : Asked s o i)
    (hlists : o.listsUntagged) :
    refsOf o s.repositories.refs i.id = [] ↔ ∀ r ∈ s.repositories.refs, r.id ≠ i.id := by
  rw [refsOf_eq_nil]
  refine ⟨fun hnone r hr hid => hnone ?_, fun hnone ⟨r, hr, hid, _⟩ => hnone r hr hid⟩
  by_cases hfilter : o.filter = []
  · exact ⟨r, hr, hid, by simp [Options.repoOk, hfilter]⟩
  · have hlabel : o.filtLabel := by simpa [Options.listsUntagged, hfilter] using hlists
    exact h hfilter hlabel i hi hasked ⟨r, hr, hid⟩

theorem classified_collected (s : Store) (o : Options) : Classified s o (collected s o) ↔ Covered s o := by
  refine ⟨fun h hfilter hlabel i hi hasked href => ?_, fun h => ⟨collected_nodup s o, fun i hi => ?_, ?_⟩⟩
  · by_contra hnone
    have hlists : o.listsUntagged := by simp [Options.listsUntagged, hlabel]
    obtain ⟨r, hr, hid⟩ := href
    have hshown := (untagged_collected hi).mpr ⟨refsOf_eq_nil.mpr hnone, hasked, hlists⟩
    exact ((h.untagged i hi).mp hshown).1 r hr hid
  · rw [untagged_collected hi]
    exact and_congr_left fun hc => h.no_refs hi hc.1 hc.2
  · intro x hx hnamed
    obtain ⟨i, hi, -, rfl⟩ | ⟨i, -, -, rfl⟩ := mem_collected.mp hx
    · exact ⟨.of_eq (withRefs_names i).1, .of_eq (withRefs_names i).2⟩
    · exact absurd ⟨rfl, rfl⟩ hnamed

theorem Classified.perm {res res' : List Shown} (h : Classified s o res) (hperm : res.Perm res') :
    Classified s o res' where
  once := (hperm.map Shown.id).nodup_iff.mp h.once
  untagged i hi := by simpa only [hperm.mem_iff] using h.untagged i hi
  named x hx := h.named x (hperm.mem_iff.mpr hx)

end Classification

/-- For all options that are accepted, the list is right exactly when no image that could be shown
without a name has only references that the pattern leaves out. -/
theorem images_classified_iff (sort : List Shown → List Shown) (hsort : ∀ l, (sort l).Perm l)
    (fromParam : Str → Option Args) (s : Store) (config : ImagesConfig) (o : Options)
    (ho : readConfig fromParam config = .ok o) :
    (∃ res, images sort fromParam s config = .ok res ∧ Classified s o res) ↔ Covered s o := by
  rw [← classified_collected]
  have hrun : images sort fromParam s config = .ok (sort (collected s o)) := by
    rw [images, ho]
    rfl
  rw [hrun]
  constructor
  · rintro ⟨res, hres, h⟩
    cases hres
    exact h.perm (hsort _)
  · exact fun h => ⟨_, rfl, h.perm (hsort _).symm⟩

/-! ### A tagged image shown without a name -/

/-- An image labelled `k` without parent, which is `ubuntu:latest`. -/
def sample : Store where
  graph := ⟨[⟨replicate 64 'a', []⟩], by simp, by decide⟩
  data _ := ⟨0, 0, 0, ⟨[(['k'], ['v'])], by simp⟩⟩
  repositories := ⟨[⟨"ubuntu".toList, "latest".toList, replicate 64 'a'⟩], by simp⟩
  ids := by decide

/-- The filter `label=k` with a pattern. -/
def labelled (pattern : Str) : Options := ⟨pattern, false, ⟨[("label".toList, [['k']])], by simp⟩⟩

theorem readConfig_labelled (pattern : Str) : readConfig (fun _ => some (labelled []).imageFilters)
    ⟨[], pattern, false⟩ = .ok (labelled pattern) := rfl

theorem images_classified_ubuntu : ∃ res,
    images id (fun _ => some (labelled []).imageFilters) sample ⟨[], "ub*".toList, false⟩ = .ok res ∧
      Classified sample (labelled "ub*".toList) res := by
  refine (images_classified_iff id (fun _ => .refl _) _ sample _ _ (readConfig_labelled _)).mpr ?_
  intro _ _ i hi _ href
  obtain ⟨r, hr, hid⟩ := href
  refine ⟨r, hr, hid, ?_⟩
  rw [mem_singleton.mp hr]
  decide +kernel

theorem images_misclassified : ∃ i ∈ sample.graph.images, (∃ r ∈ sample.repositories.refs, r.id = i.id) ∧
    ∃ x, images id (fun _ => some (labelled []).imageFilters) sample ⟨[], "busy*".toList, false⟩ = .ok [x] ∧
      x.id = i.id ∧ x.untagged := by
  refine ⟨_, mem_singleton_self _, ⟨_, mem_singleton_self _, rfl⟩,
    newImage sample ⟨replicate 64 'a', []⟩ [noTag] [noDigest], ?_, rfl, rfl, rfl⟩
  -- the pattern leaves the one reference out
  have hrepo : (labelled "busy*".toList).repoOk "ubuntu".toList = false := by decide +kernel
  have hstep : ∀ st, step sample (labelled "busy*".toList) st
      ⟨"ubuntu".toList, "latest".toList, replicate 64 'a'⟩ = st := fun st => if_pos (by rw [hrepo]; rfl)
  rw [images, readConfig_labelled, Except.map, collected, sample, foldl_cons, foldl_nil, ← sample,
    hstep]
  rfl

end DockerEngine.Images.Listing
