import DockerEngine.Images.Graph
import DockerEngine.Registry.Names

/-!
# The tag store

`graph.TagStore` maps a repository and a tag (or digest) to the id of an image. A repository is there as
long as it has a tag. No two references have one name, which is part of the type.

A name is looked up in the tag store first and then as an id (`lookupImage`). Where the name is the id of
an image, this finds the image unless a repository bears the id as its name and leads elsewhere
(`lookupImage_id`).

Repository names are brought to their local form by `registry.NormalizeLocalName`, of which only this is
used in general: it leaves image ids as they are, since they are refused as repository names
(`registryNaming` is the instance). The file behind the store is not looked at here: reading and writing it
succeeds. The order in which a map is read is the order of
the list; it matters to a lookup only where a tag that looks like a short id begins several ids of one
repository.
-/

namespace DockerEngine.Images

open Filepath List Proc Graph

/-- `registry.NormalizeLocalName`. -/
structure Naming where
  normalizeLocalName : Str → Str
  normalize_id : ∀ id, validID id = true → normalizeLocalName id = id

/-- The local forms that the registry gives. -/
def registryNaming : Naming := ⟨Registry.normalizeLocalName, fun _ => Registry.normalizeLocalName_id⟩

/-- A name that leads to an image. -/
structure Ref where
  repo : Str
  tag : Str
  id : Str
  deriving DecidableEq, Repr

attribute [ext] Ref

/-- The reference as it is written. -/
def Ref.text (r : Ref) : Str := imageReference r.repo r.tag

/-- `TagStore.Repositories`. -/
structure Repositories where
  refs : List Ref
  nodup : (refs.map fun r => (r.repo, r.tag)).Nodup
  deriving DecidableEq

/-- The error of `TagStore.Delete`: "No such repository: " + repoName. -/
structure NoSuchRepository where
  repoName : Str
  deriving DecidableEq, Repr

namespace Repositories

/-- The references that meet a condition. -/
def restrict (t : Repositories) (keep : Ref → Bool) : Repositories where
  refs := t.refs.filter keep
  nodup := t.nodup.sublist (filter_sublist.map _)

/-- `_, exists := store.Repositories[repoName]`. -/
def exists_ (t : Repositories) (repoName : Str) : Bool := t.refs.any fun r => r.repo = repoName

/-- `ByID()[id]`: the references of an image, in order. -/
def byID (t : Repositories) (id : Str) : List Str :=
  ((t.refs.filter fun r => r.id = id).map Ref.text).insertionSort (· ≤ ·)

/-- `TagStore.GetImage`. -/
def getImage (N : Naming) (g : Graph) (t : Repositories) (repoName refOrID : Str) : Except GetErr (Option Image) :=
  let repoName := N.normalizeLocalName repoName
  match t.refs.find? fun r => r.repo = repoName ∧ r.tag = refOrID with
  | some r => (g.get r.id).map some
  | none =>
    if isShortID (truncateID refOrID) then
      match t.refs.find? fun r => r.repo = repoName ∧ refOrID <+: r.id with
      | some r => (g.get r.id).map some
      | none => .ok none
    else .ok none

/-- The tag, or the default one. -/
def orDefault (tag : Str) : Str := if tag = [] then defaultTag else tag

/-- `TagStore.LookupImage`. -/
def lookupImage (N : Naming) (g : Graph) (t : Repositories) (name : Str) : Except GetErr Image :=
  match t.getImage N g (parseRepositoryTag name).1 (orDefault (parseRepositoryTag name).2) with
  | .error e => .error e
  | .ok (some i) => .ok i
  | .ok none => g.get name

/-- `TagStore.Delete`. -/
def delete (N : Naming) (repoName ref : Str) : Proc Repositories NoSuchRepository Bool := fun t =>
  let repoName := N.normalizeLocalName repoName
  if ref = [] then (.ok true, t.restrict fun r => r.repo ≠ repoName)
  else if t.exists_ repoName = false then (.error ⟨repoName⟩, t)
  else (.ok (t.refs.any fun r => r.repo = repoName ∧ r.tag = ref),
    t.restrict fun r => ¬ (r.repo = repoName ∧ r.tag = ref))

/-- `TagStore.DeleteAll`. The name is split at its colons, and the first two pieces are taken. -/
def deleteAll (N : Naming) (id : Str) : Proc Repositories NoSuchRepository Unit := do
  let names ← read fun t => t.byID id
  names.forM fun name => do
    if name.contains ':' then
      let nameParts := name.splitOn ':'
      let _ ← delete N (nameParts.getD 0 []) (nameParts.getD 1 [])
    else
      let _ ← delete N name []

/-! ## Lookup -/

variable {N : Naming} {g : Graph} {t t₀ : Repositories} {i : Image}

variable {id name : Str} {r : Ref}

/-- What is looked up exists. -/
theorem mem_of_lookupImage (h : t.lookupImage N g name = .ok i) : i ∈ g.images := by
  have hmap : ∀ {x : Except GetErr Image}, x.map some = .ok (some i) → x = .ok i := by
    intro x hx
    cases x with
    | error e => cases hx
    | ok j =>
      cases hx
      rfl
  unfold lookupImage at h
  split at h
  · cases h
  next j hget =>
    cases h
    unfold getImage at hget
    dsimp only at hget
    split at hget
    · exact (mem_of_get (hmap hget)).1
    split at hget
    · split at hget
      · exact (mem_of_get (hmap hget)).1
      · cases hget
    · cases hget
  · exact (mem_of_get h).1

/-- An image is found by its id, unless the default tag of a repository of that name leads elsewhere. -/
theorem lookupImage_id (hi : i ∈ g.images) (hrefs : ∀ r ∈ t.refs, r.repo = i.id → r.tag = defaultTag → r.id = i.id) :
    t.lookupImage N g i.id = .ok i := by
  have hid := g.ids i hi
  have hlatest : isShortID (truncateID defaultTag) = false := by decide
  have hget : t.getImage N g i.id defaultTag = .ok none ∨
      t.getImage N g i.id defaultTag = .ok (some i) := by
    unfold getImage
    rw [N.normalize_id i.id hid, hlatest]
    dsimp only
    split
    next r hfind =>
      have hr := find?_some hfind
      rw [decide_eq_true_eq] at hr
      rw [hrefs r (mem_of_find?_eq_some hfind) hr.1 hr.2, get_id hi]
      exact .inr rfl
    next => exact .inl rfl
  rw [lookupImage, parseRepositoryTag_id hid]
  show (match t.getImage N g i.id defaultTag with
    | .error e => .error e
    | .ok (some i) => .ok i
    | .ok none => g.get i.id) = Except.ok i
  rcases hget with hget | hget
  · rw [hget]
    exact get_id hi
  · rw [hget]

/-! ## References of an image -/

theorem mem_byID : name ∈ t.byID id ↔ ∃ r ∈ t.refs, r.id = id ∧ r.text = name := by
  rw [byID, mem_insertionSort, mem_map]
  constructor
  · rintro ⟨r, hr, rfl⟩
    rw [mem_filter, decide_eq_true_iff] at hr
    exact ⟨r, hr.1, hr.2, rfl⟩
  · rintro ⟨r, hr, hid, rfl⟩
    exact ⟨r, by rw [mem_filter, decide_eq_true_iff]; exact ⟨hr, hid⟩, rfl⟩

theorem byID_length (id : Str) : (t.byID id).length = (t.refs.filter fun r => r.id = id).length := by
  rw [byID, length_insertionSort, length_map]

theorem byID_eq_nil : t.byID id = [] ↔ ∀ r ∈ t.refs, r.id ≠ id := by
  rw [← length_eq_zero_iff, byID_length, length_eq_zero_iff, filter_eq_nil_iff]
  simp

/-! ## Deleting -/

/-- Every reference was there before. -/
def Within (t₀ t : Repositories) : Prop := ∀ r ∈ t.refs, r ∈ t₀.refs

theorem mem_restrict {keep : Ref → Bool} : r ∈ (t.restrict keep).refs ↔ r ∈ t.refs ∧ keep r := mem_filter

theorem delete_within (repoName ref : Str) : Preserves (Within t₀) (delete N repoName ref) := by
  apply Triple.of_snd
  intro t ht
  unfold delete
  dsimp only
  split
  · exact fun r hr => ht r (mem_restrict.mp hr).1
  · split
    · exact ht
    · exact fun r hr => ht r (mem_restrict.mp hr).1

/-- A reference that is there is deleted, and no other. -/
theorem delete_of_mem (hr : r ∈ t.refs) (hrepo : N.normalizeLocalName r.repo = r.repo)
    (htag : r.tag ≠ []) : delete N r.repo r.tag t =
      (.ok true, t.restrict fun r' => ¬ (r'.repo = r.repo ∧ r'.tag = r.tag)) := by
  have hexists : t.exists_ r.repo := any_eq_true.mpr ⟨r, hr, by simp⟩
  have hany : (t.refs.any fun r' => r'.repo = r.repo ∧ r'.tag = r.tag) := any_eq_true.mpr ⟨r, hr, by simp⟩
  rw [delete]
  simp only [hrepo, if_neg htag, hexists, hany, Bool.true_eq_false, if_false]

/-- Of two references of an image the deletion of one leaves the other. -/
theorem delete_leaves {repoName ref : Str} (href : ref ≠ []) (h : 1 < (t.byID id).length) :
    ∃ r ∈ (delete N repoName ref t).2.refs, r.id = id := by
  rw [byID_length] at h
  have hnodup : (t.refs.filter fun r => r.id = id).Nodup := (t.nodup.of_map _).filter _
  rcases hrefs : t.refs.filter fun r => r.id = id with _ | ⟨a, _ | ⟨b, rest⟩⟩
  · simp [hrefs] at h
  · simp [hrefs] at h
  have hmem : ∀ r ∈ a :: b :: rest, r ∈ t.refs ∧ r.id = id := by
    intro r hr
    rw [← hrefs, mem_filter, decide_eq_true_iff] at hr
    exact hr
  obtain ⟨ha, haid⟩ := hmem a (by simp)
  obtain ⟨hb, hbid⟩ := hmem b (by simp)
  have hab : a ≠ b := by
    rw [hrefs] at hnodup
    intro he
    simp [he] at hnodup
  unfold delete
  rw [if_neg href]
  split
  · exact ⟨a, ha, haid⟩
  by_cases hkey : a.repo = N.normalizeLocalName repoName ∧ a.tag = ref
  · -- the other one has another name
    refine ⟨b, mem_restrict.mpr ⟨hb, decide_eq_true fun hkey' => hab ?_⟩, hbid⟩
    apply inj_on_of_nodup_map t.nodup ha hb
    rw [hkey.1, hkey.2, hkey'.1, hkey'.2]
  · exact ⟨a, mem_restrict.mpr ⟨ha, decide_eq_true hkey⟩, haid⟩

theorem deleteAll_within (id : Str) : Preserves (Within t₀) (deleteAll N id) := by
  refine .read_any fun names => .forM names fun name _ => ?_
  split
  · exact (delete_within _ _).bind fun _ => .pure _ fun _ h => h
  · exact (delete_within _ _).bind fun _ => .pure _ fun _ h => h

/-- An image without references has nothing to delete. -/
theorem deleteAll_nil (h : t.byID id = []) : deleteAll N id t = (.ok (), t) := by
  rw [deleteAll, read_bind_run, h]
  rfl

end Repositories

end DockerEngine.Images
