import DockerEngine.Images.Names
import DockerEngine.Lib.GoMap
import DockerEngine.Lib.Proc

/-!
# The image graph

`graph.Graph` holds images under their ids. An id is 64 hexadecimal characters, which `Register` checks;
this is part of the type, and so is that no two images have one id. The parent of an image is not checked.

An id is looked up by any text that begins it and no other id (`get`); the whole id finds its image
(`get_id`). `walkHistory` follows parents, for at most as many rounds as there are images. That is enough
when no chain of parents is a cycle (`walkHistory_returns`), and a walk that returns has shown every
ancestor to the handler (`walkRounds_sees`).

The files behind the graph are not modelled: an image in the index can be loaded.
-/

namespace DockerEngine.Images

open Filepath List

/-! ## Images -/

/-- An image: its id, and the id of its parent if it has one. -/
structure Image where
  id : Str
  parent : Str
  deriving DecidableEq, Repr

/-- `Graph`, as the images in its index. -/
structure Graph where
  images : List Image
  nodup : (images.map Image.id).Nodup
  ids : ∀ i ∈ images, validID i.id = true

/-- The errors of `Graph.Get`. -/
inductive GetErr where
  | emptyPrefix
  | ambiguousPrefix
  | noSuchID (s : Str)
  deriving DecidableEq, Repr

/-- The texts of the errors. -/
def GetErr.text : GetErr → Str
  | .emptyPrefix => "could not find image: Prefix can't be empty".toList
  | .ambiguousPrefix => "could not find image: Multiple IDs found with provided prefix".toList
  | .noSuchID s => "could not find image: no such id: ".toList ++ s

/-- `Graph.IsNotExist`, which reads the text. -/
def isNotExist (e : GetErr) (id : Str) : Bool :=
  let lower := e.text.map Char.toLower
  (decide ("does not exist".toList <:+: lower) || decide ("no such".toList <:+: lower)) &&
    decide (id <:+: e.text)

namespace Graph

section

variable (g : Graph)

/-- `Graph.Get`: the image whose id the text begins, if there is just one. -/
def get (name : Str) : Except GetErr Image :=
  if name = [] then .error .emptyPrefix
  else
    match g.images.filter fun i => name.isPrefixOf i.id with
    | [] => .error (.noSuchID name)
    | [i] => .ok i
    | _ => .error .ambiguousPrefix

/-- `Graph.Exists`. -/
def exists_ (id : Str) : Bool :=
  match g.get id with
  | .ok _ => true
  | .error _ => false

/-- `Graph.GetParent`. -/
def getParent (i : Image) : Except GetErr (Option Image) :=
  if i.parent = [] then .ok none else (g.get i.parent).map some

/-- `ByParent()[id]`. -/
def byParent (id : Str) : List Image :=
  g.images.filter fun i =>
    match g.get i.parent with
    | .error _ => false
    | .ok p => p.id = id

/-- The graph without an image. -/
def remove (id : Str) : Graph where
  images := g.images.filter fun i => i.id ≠ id
  nodup := g.nodup.sublist (filter_sublist.map _)
  ids i hi := g.ids i (mem_of_mem_filter hi)

/-- `Graph.Delete`. -/
def delete (name : Str) : Proc Graph GetErr Unit := fun g =>
  match g.get name with
  | .error e => (.error e, g)
  | .ok i => (.ok (), g.remove i.id)

/-- How a walk over the history of an image can fail. -/
inductive WalkErr (ε : Type) where
  /-- The handler returned an error. -/
  | handler (e : ε)
  /-- "Error while getting parent image: " + e. -/
  | parent (e : GetErr)
  /-- The walk goes on for ever. -/
  | endless
  deriving DecidableEq, Repr

/-- The rounds of `WalkHistory`. -/
def walkRounds {ε : Type} (g : Graph) (handler : Image → Except ε Unit) : Nat → Image → Except (WalkErr ε) Unit
  | 0, _ => .error .endless
  | n + 1, i =>
    match handler i with
    | .error e => .error (.handler e)
    | .ok _ =>
      match g.getParent i with
      | .error e => .error (.parent e)
      | .ok none => .ok ()
      | .ok (some p) => walkRounds g handler n p

/-- `Graph.WalkHistory`. A walk that has made a round for each image of the graph and goes on is
endless. -/
def walkHistory {ε : Type} (g : Graph) (i : Image) (handler : Image → Except ε Unit) : Except (WalkErr ε) Unit :=
  walkRounds g handler g.images.length i

/-- The image itself, its parent, the parent of that, and so on. -/
inductive Ancestor (g : Graph) : Image → Image → Prop
  | refl (i : Image) : Ancestor g i i
  | step {i p a : Image} (h : g.getParent i = .ok (some p)) (hp : Ancestor g p a) : Ancestor g i a

/-- No chain of parents is a cycle: images can be ranked above their parents. -/
def Acyclic : Prop := ∃ rank : Str → Nat, ∀ i ∈ g.images, ∀ p, g.getParent i = .ok (some p) → rank p.id < rank i.id

end

/-- The images form a forest: their parents are given by whole ids, and no chain of parents is a cycle. -/
structure Forest (g : Graph) : Prop where
  parents : ∀ i ∈ g.images, i.parent = [] ∨ validID i.parent = true
  acyclic : g.Acyclic

/-! ## Lookup by id -/

variable {g g' : Graph} {i p : Image} {name : Str}

theorem eq_of_id (hi : i ∈ g.images) (hp : p ∈ g.images) (h : i.id = p.id) : i = p :=
  inj_on_of_nodup_map g.nodup hi hp h

/-- An id finds its image. -/
theorem get_id (h : i ∈ g.images) : g.get i.id = .ok i := by
  have hid := g.ids i h
  have hfilter : (g.images.filter fun j => i.id.isPrefixOf j.id) = [i] := by
    have hiff : ∀ j ∈ g.images, (i.id.isPrefixOf j.id ↔ j = i) := by
      intro j hj
      rw [List.isPrefixOf_iff_prefix]
      constructor
      · intro hpre
        exact g.eq_of_id hj h (validID_begins hid (g.ids j hj) hpre).symm
      · rintro rfl
        exact prefix_refl _
    have hcongr : (g.images.filter fun j => i.id.isPrefixOf j.id) = g.images.filter (· = i) := by
      apply filter_congr
      intro j hj
      rw [Bool.eq_iff_iff, hiff j hj, decide_eq_true_iff]
    rw [hcongr]
    have hnodup : g.images.Nodup := g.nodup.of_map _
    rw [filter_eq, hnodup.count, if_pos h, replicate_one]
  rw [get, if_neg (validID_ne_nil hid), hfilter]

theorem mem_of_get (h : g.get name = .ok i) : i ∈ g.images ∧ name <+: i.id := by
  unfold get at h
  split at h
  · cases h
  split at h
  · cases h
  next j hfilter =>
    obtain rfl : j = i := by cases h; rfl
    have hmem : j ∈ g.images.filter fun j => name.isPrefixOf j.id := by simp [hfilter]
    rw [mem_filter, isPrefixOf_iff_prefix] at hmem
    exact hmem
  · cases h

theorem exists_of_mem (h : i ∈ g.images) : g.exists_ i.id := by
  rw [exists_, get_id h]

/-- The graph with another image. -/
def insert (g : Graph) (img : Image) (hid : validID img.id = true) (hnew : g.exists_ img.id = false) : Graph where
  images := img :: g.images
  nodup := by
    rw [map_cons, nodup_cons]
    refine ⟨fun hmem => ?_, g.nodup⟩
    obtain ⟨i, hi, heq⟩ := mem_map.mp hmem
    rw [← heq, exists_of_mem hi] at hnew
    cases hnew
  ids := forall_mem_cons.mpr ⟨hid, g.ids⟩

theorem mem_of_getParent (h : g.getParent i = .ok (some p)) : p ∈ g.images ∧ i.parent <+: p.id := by
  unfold getParent at h
  split at h
  · cases h
  rcases hget : g.get i.parent with e | q
  · rw [hget] at h
    cases h
  · rw [hget] at h
    cases h
    exact mem_of_get hget

/-- A parent that is given by its whole id. -/
theorem getParent_eq_some (hi : i.parent = [] ∨ validID i.parent) :
    g.getParent i = .ok (some p) ↔ i.parent = p.id ∧ p ∈ g.images := by
  constructor
  · intro h
    obtain ⟨hmem, hpre⟩ := mem_of_getParent h
    have hne : i.parent ≠ [] := by
      intro hnil
      rw [getParent, if_pos hnil] at h
      cases h
    exact ⟨validID_begins (hi.resolve_left hne) (g.ids p hmem) hpre, hmem⟩
  · rintro ⟨hid, hp⟩
    rw [getParent, if_neg (by rw [hid]; exact validID_ne_nil (g.ids p hp)), hid, get_id hp]
    rfl

/-! ## Walking up -/

variable {a : Image}

theorem Ancestor.mem (h : Ancestor g i a) (hi : i ∈ g.images) : a ∈ g.images := by
  induction h with
  | refl => exact hi
  | step hstep _ ih => exact ih (mem_of_getParent hstep).1

/-- Ancestors are found again in a graph with fewer images if none of them is gone. -/
theorem Ancestor.of_subset (h : Ancestor g i a) (hi : i ∈ g.images)
    (hparents : ∀ i ∈ g.images, i.parent = [] ∨ validID i.parent)
    (hkept : ∀ j, Ancestor g i j → j ∈ g'.images) :
    Ancestor g' i a := by
  induction h with
  | refl => exact .refl _
  | step hstep _ ih =>
    obtain ⟨hid, hp⟩ := (getParent_eq_some (hparents _ hi)).mp hstep
    have hp' := hkept _ (.step hstep (.refl _))
    apply Ancestor.step ((getParent_eq_some (hparents _ hi)).mpr ⟨hid, hp'⟩)
    exact ih hp fun j hj => hkept j (.step hstep hj)

variable {ε : Type} {handler : Image → Except ε Unit}

/-- A walk that returns has shown every ancestor to the handler. -/
theorem walkRounds_sees
    (ha : Ancestor g i a) : ∀ {n : Nat}, walkRounds g handler n i = .ok () → handler a = .ok () := by
  induction ha with
  | refl i =>
    intro n h
    cases n with
    | zero => cases h
    | succ n =>
      rw [walkRounds] at h
      split at h
      · cases h
      next hok => exact hok
  | step hstep _ ih =>
    intro n h
    cases n with
    | zero => cases h
    | succ n =>
      rw [walkRounds, hstep] at h
      split at h
      · cases h
      · exact ih h

/-- An error of the handler comes from the handler. -/
theorem walkRounds_handler {e : ε} : ∀ {n : Nat} {i : Image}, walkRounds g handler n i = .error (.handler e) →
      ∃ j, handler j = .error e := by
  intro n
  induction n with
  | zero => nofun
  | succ n ih =>
    intro i h
    rw [walkRounds] at h
    split at h
    next e' he =>
      cases h
      exact ⟨i, he⟩
    · split at h
      · cases h
      · cases h
      · exact ih h

/-- The images of lower rank. -/
def lower (g : Graph) (rank : Str → Nat) (i : Image) : Finset Image :=
  g.images.toFinset.filter fun j => rank j.id < rank i.id

variable {rank : Str → Nat}

/-- Along the parents of an acyclic graph the images of lower rank get fewer. -/
theorem lower_card_lt (hp : p ∈ g.images) (h : rank p.id < rank i.id) :
    (g.lower rank p).card < (g.lower rank i).card := by
  apply Finset.card_lt_card
  apply Finset.ssubset_iff_subset_ne.mpr
  constructor
  · apply Finset.monotone_filter_right
    intro j _ hj
    exact hj.trans h
  · intro heq
    have hmem : p ∈ g.lower rank i := by simpa [lower] using ⟨hp, h⟩
    rw [← heq] at hmem
    simp [lower] at hmem

theorem lower_card_lt_length (hi : i ∈ g.images) : (g.lower rank i).card < g.images.length := by
  have hlt : (g.lower rank i).card < g.images.toFinset.card := by
    apply Finset.card_lt_card
    apply Finset.filter_ssubset.mpr
    exact ⟨i, by simpa using hi, by simp⟩
  exact hlt.trans_le (toFinset_card_le _)

theorem walkRounds_returns (hrank : ∀ i ∈ g.images, ∀ p, g.getParent i = .ok (some p) → rank p.id < rank i.id) :
    ∀ {n : Nat} {i : Image}, i ∈ g.images → (g.lower rank i).card < n →
      walkRounds g handler n i ≠ .error .endless := by
  intro n
  induction n with
  | zero =>
    intro i _ hn
    omega
  | succ n ih =>
    intro i hi hn
    rw [walkRounds]
    split
    · nofun
    split
    · nofun
    · nofun
    next p hstep =>
      have hp := (mem_of_getParent hstep).1
      have hlt := lower_card_lt hp (hrank i hi p hstep)
      apply ih hp
      omega

/-- In an acyclic graph the walk from any image ends. -/
theorem walkHistory_returns (h : g.Acyclic) (hi : i ∈ g.images) : g.walkHistory i handler ≠ .error .endless := by
  obtain ⟨rank, hrank⟩ := h
  exact walkRounds_returns hrank hi (lower_card_lt_length hi)

theorem mem_remove {id : Str} : i ∈ (g.remove id).images ↔ i ∈ g.images ∧ i.id ≠ id := by
  rw [remove, mem_filter, decide_eq_true_iff]

theorem remove_length_lt (h : i ∈ g.images) : (g.remove i.id).images.length < g.images.length := by
  apply length_filter_lt_length_iff_exists.mpr
  exact ⟨i, h, by simp⟩

theorem Forest.remove (h : g.Forest) (id : Str) : (g.remove id).Forest := by
  obtain ⟨hparents, rank, hrank⟩ := h
  refine ⟨fun i hi => hparents i (mem_remove.mp hi).1, rank, fun i hi p hp => ?_⟩
  have hi' := (mem_remove.mp hi).1
  obtain ⟨hid, hmem⟩ := (getParent_eq_some (hparents i hi')).mp hp
  exact hrank i hi' p ((getParent_eq_some (hparents i hi')).mpr ⟨hid, (mem_remove.mp hmem).1⟩)

end Graph

end DockerEngine.Images
