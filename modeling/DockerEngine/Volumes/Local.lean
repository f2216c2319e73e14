import DockerEngine.Lib.Filepath
import DockerEngine.Lib.Trace

/-!
# The local volume driver: `volume/local`

`local.Root` keeps the data of the volume `name` in `DataPath(name)`, which is `name` joined to the volumes
directory with `_data` behind it, and counts the uses of each volume. When the last use is given back, the
data and the directory it is in are removed. Names are not checked. A name that climbs makes a directory
outside the volumes directory, and a name with more than one element can lie in the directory of another
volume, or around it (`volumes_not_isolated`).

`volumes_isolated` is what holds: as long as every name created leads strictly below the volumes directory,
and no volume is removed while the directory it is in holds the data of another one or lies in it, every
directory made is strictly below the volumes directory, and what is removed is below it and belongs to no
other volume.

The host has directories and files and no symbolic links, so that a clean path is the position it names.
Anything may happen to the host between the calls, except that the volumes directory stays. System calls
fail only where a file or nothing is in the place of a directory.
-/

namespace DockerEngine.Volumes

open Filepath Trace List

/-! ## The host -/

/-- What is at a position of the host. -/
inductive Node where
  | dir
  | file
  deriving DecidableEq, Repr

/-- A host without symbolic links. What is there is in a directory. -/
structure Host where
  nodes : List Str → Option Node
  root : nodes [] = some .dir
  parents : ∀ p n, nodes (p ++ [n]) ≠ none → nodes p = some .dir

/-- The position that a path names. -/
def position (path : Str) : List Str := walk [] (comps path)

namespace Host

/-- `os.MkdirAll`. It fails if there is a file on the way. -/
def mkdirAll (p : List Str) (h : Host) : Option Host :=
  if ∀ q ∈ p.inits, h.nodes q ≠ some .file then
    some {
      nodes := fun q => if q <+: p then some .dir else h.nodes q
      root := if_pos nil_prefix
      parents := by
        intro q n hq
        by_cases hp : q <+: p
        · rw [if_pos hp]
        have hn : ¬ q ++ [n] <+: p := fun hpre => hp ((prefix_append q [n]).trans hpre)
        rw [if_neg hp]
        rw [if_neg hn] at hq
        exact h.parents q n hq }
  else none

/-- `os.RemoveAll`. The root directory itself cannot be removed. -/
def removeAll (p : List Str) (h : Host) : Host where
  nodes := fun q => if p <+: q ∧ q ≠ [] then none else h.nodes q
  root := by rw [if_neg (by simp), h.root]
  parents := by
    intro q n hq
    have hout : ¬ (p <+: q ++ [n] ∧ q ++ [n] ≠ []) := fun hp => hq (if_pos hp)
    rw [if_neg hout] at hq
    have hp : ¬ (p <+: q ∧ q ≠ []) := fun hp => hout ⟨hp.1.trans (prefix_append q [n]), by simp⟩
    rw [if_neg hp]
    exact h.parents q n hq

/-- `filepath.EvalSymlinks` of a clean path: without links the path is the real one, if it is there. -/
def evalSymlinks (path : Str) (h : Host) : Option Str :=
  if h.nodes (position path) = none then none else some path

end Host

/-! ## The driver -/

/-- `local.Volume`. -/
structure Volume where
  name : Str
  path : Str
  usedCount : Int
  deriving DecidableEq, Repr

/-- `local.Root` with the volumes it has ever made, which `volumes` and its callers refer to, and the host
below it. -/
structure Root where
  scope : Str
  rooted : isAbs scope = true
  volumes : List (Str × Nat)
  objects : List Volume
  host : Host

section

variable (scope : Str) (r : Root)

/-- The directory of the volumes, `Root.path`. -/
def volumesPath : Str := join [scope, "volumes".toList]

/-- `oldVfsDir` in the scope. -/
def oldVfsPath : Str := join [scope, "vfs/dir".toList]

/-- `DataPath`. -/
def dataPath (name : Str) : Str := join [volumesPath scope, name, "_data".toList]

/-- `scopedPath`. -/
def scopedPath (realPath : Str) : Bool :=
  hasPrefix realPath (volumesPath scope) || hasPrefix realPath (oldVfsPath scope)

/-- The position of the directory of the volumes. -/
def Root.dir : List Str := position (volumesPath r.scope)

/-- `New`, where the volumes directory has the given entries. -/
def new (rooted : isAbs scope = true) (entries : List { n // Proper n }) (host : Host) : Option Root :=
  match host.mkdirAll (position (volumesPath scope)) with
  | none => none
  | some host =>
    some { scope, rooted, host
           volumes := entries.zipIdx.map fun e => (e.1.1, e.2)
           objects := entries.map fun n => ⟨n.1, dataPath scope n.1, 0⟩ }

/-- The errors of the driver. -/
inductive Err where
  | mkdirAll
  | unknownVolumeType
  | evalSymlinks
  /-- "Unable to remove a directory of out the Docker root: " + path. -/
  | outOfRoot (realPath : Str)
  deriving DecidableEq, Repr

/-- The count of uses is changed. -/
def Root.count (i : Nat) (d : Int) : Root :=
  { r with objects := r.objects.modify i fun v => { v with usedCount := v.usedCount + d } }

/-- `Create`. The volume is returned as its place among the volumes ever made. -/
def create (name : Str) (r : Root) : Except Err Nat × Root :=
  match r.volumes.lookup name with
  | some i => (.ok i, r.count i 1)
  | none =>
    match r.host.mkdirAll (position (dataPath r.scope name)) with
    | none => (.error .mkdirAll, r)
    | some host =>
      (.ok r.objects.length,
        { r with
          host
          objects := r.objects ++ [⟨name, dataPath r.scope name, 1⟩]
          volumes := (name, r.objects.length) :: r.volumes })

/-- `Remove`. -/
def remove (i : Nat) (r : Root) : Except Err Unit × Root :=
  match (r.count i (-1)).objects[i]? with
  | none => (.error .unknownVolumeType, r)
  | some v =>
    if v.usedCount = 0 then
      match r.host.evalSymlinks v.path with
      | none => (.error .evalSymlinks, r.count i (-1))
      | some realPath =>
        if scopedPath r.scope realPath then
          (.ok (),
            { r.count i (-1) with
              host := (r.host.removeAll (position realPath)).removeAll (position (dir v.path))
              volumes := r.volumes.filter fun e => e.1 ≠ v.name })
        else (.error (.outOfRoot realPath), r.count i (-1))
    else (.ok (), r.count i (-1))

/-! ## Runs -/

/-- What can happen: the calls, and any change of the host that leaves the volumes directory. -/
inductive Label where
  | create (name : Str)
  | remove (i : Nat)
  | change (host : Host)

/-- What a step does. -/
def step : Label → Option Root
  | .create name => some (create name r).2
  | .remove i => some (remove i r).2
  | .change host => if host.nodes r.dir = some .dir then some { r with host } else none

/-- The volumes of the map other than the one in place `i`. -/
def others (i : Nat) : List Volume := (r.volumes.filter fun e => e.2 ≠ i).filterMap fun e => r.objects[e.2]?

/-- What a call has made is strictly below the volumes directory. -/
def MadeBelow (r' : Root) : Prop := ∀ p, r.host.nodes p = none → r'.host.nodes p ≠ none → r.dir <+: p ∧ p ≠ r.dir

/-- What the removal of a volume has removed belongs to no other volume, and is below the volumes directory
or in the data of the volume. -/
def RemovedOwn (i : Nat) (r' : Root) : Prop :=
  ∀ p, r.host.nodes p ≠ none → r'.host.nodes p = none →
    (∀ w ∈ others r i, ¬ position w.path <+: p) ∧
      (r.dir <+: p ∨ ∀ v ∈ r.objects[i]?, position v.path <+: p)

/-- The volumes are isolated in a step. -/
def Isolated : Label → Prop
  | .create name => MadeBelow r (create name r).2
  | .remove i => RemovedOwn r i (remove i r).2
  | .change _ => True

/-- A name that is created leads strictly below the volumes directory. At the last use of a volume, the
directory that its data is in holds the data of no other volume and is not in it. -/
def Apart : Label → Prop
  | .create name => r.dir <+: walk r.dir (comps name) ∧ walk r.dir (comps name) ≠ r.dir
  | .remove i => ∀ v ∈ r.objects[i]?, v.usedCount = 1 → ∀ w ∈ others r i,
      ¬ position (dir v.path) <+: position w.path ∧
        ¬ position w.path <+: position (dir v.path)
  | .change _ => True

end

instance decidableApart (r : Root) (l : Label) : Decidable (Apart r l) := by
  cases l <;> unfold Apart <;> infer_instance

/-! ## Positions -/

theorem position_absPath {ns : List Str} (h : AllProper ns) : position (absPath ns) = ns := by
  rw [position, comps_absPath_proper h, walk_proper [] h, nil_append]

theorem proper_data : Proper "_data".toList := by decide

theorem volumesPath_eq {scope : Str} (h : isAbs scope) :
    AllProper (position (volumesPath scope)) ∧
      volumesPath scope = absPath (position (volumesPath scope)) := by
  have hne : scope ≠ [] := by
    rintro rfl
    cases h
  have hjoin : volumesPath scope = clean (joinSlash [scope, "volumes".toList]) := by
    rw [volumesPath, join, dropWhile_cons_of_neg (by simpa using hne)]
  have habs : isAbs (joinSlash [scope, "volumes".toList]) := by
    rw [joinSlash_cons (by simp)]
    cases scope with
    | nil => exact absurd rfl hne
    | cons c cs => exact h
  have hproper : ∀ n ∈ walk [] (comps (joinSlash [scope, "volumes".toList])), Proper n :=
    walk_names (by simp) fun _ => mem_comps
  rw [hjoin, clean_rooted habs, position_absPath hproper]
  exact ⟨hproper, rfl⟩

variable (r : Root)

theorem Root.dir_proper : AllProper r.dir := (volumesPath_eq r.rooted).1

/-- The data of a volume is in `_data` where the name leads from the volumes directory. -/
theorem dataPath_eq {scope : Str} (h : isAbs scope) (name : Str) :
    dataPath scope name = absPath (walk (position (volumesPath scope)) (comps name) ++ ["_data".toList]) := by
  obtain ⟨hproper, heq⟩ := volumesPath_eq h
  have hjoin : dataPath scope name =
      join [absPath (position (volumesPath scope)), name ++ '/' :: "_data".toList] := by
    rw [dataPath, heq, position_absPath hproper]
    unfold join
    rw [dropWhile_cons_of_neg (by simp [absPath]), dropWhile_cons_of_neg (by simp [absPath])]
    simp [joinSlash_cons, joinSlash_singleton]
  have hdata : comps "_data".toList = ["_data".toList] := by decide
  rw [hjoin, join_absPath hproper, comps_append_slash, hdata, walk_append,
    walk_proper _ (by simpa using proper_data)]

theorem position_dataPath (name : Str) : position (dataPath r.scope name) =
    position (dir (dataPath r.scope name)) ++ ["_data".toList] := by
  have hproper : AllProper (walk r.dir (comps name)) := walk_names r.dir_proper fun _ => mem_comps
  have heq : dataPath r.scope name = absPath (walk r.dir (comps name) ++ ["_data".toList]) :=
    dataPath_eq r.rooted name
  rw [heq, position_absPath (proper_snoc hproper proper_data), dir_absPath_snoc hproper proper_data,
    position_absPath hproper]

/-- A path leads to `_data` in a directory strictly below the volumes directory. -/
def Placed (d : List Str) (path : Str) : Prop :=
  ∃ ns, (∀ n ∈ ns, Proper n) ∧ path = absPath (ns ++ ["_data".toList]) ∧ d <+: ns ∧ ns ≠ d

theorem placed_dataPath {name : Str} (h : Apart r (.create name)) : Placed r.dir (dataPath r.scope name) := by
  refine ⟨walk r.dir (comps name), walk_names r.dir_proper fun _ => mem_comps, ?_, h.1, h.2⟩
  exact dataPath_eq r.rooted name

/-- The position of a placed path, and of the directory it is in. -/
theorem Placed.position {d : List Str} {path : Str} (h : Placed d path) :
    position path = position (dir path) ++ ["_data".toList] ∧
      d <+: position (dir path) ∧ position (dir path) ≠ d := by
  obtain ⟨ns, hproper, rfl, hd, hne⟩ := h
  rw [position_absPath (proper_snoc hproper proper_data), dir_absPath_snoc hproper proper_data,
    position_absPath hproper]
  exact ⟨rfl, hd, hne⟩

/-! ## Changes of the host -/

namespace Host

variable {h h' : Host} {p q : List Str}

/-- What leads to a position that is there are directories. -/
theorem dir_of_prefix (hq : h.nodes q ≠ none) (hp : p <+: q) (hne : p ≠ q) : h.nodes p = some .dir := by
  induction q using reverseRecOn with
  | nil => exact absurd (prefix_nil.mp hp) hne
  | append_singleton q n ih =>
    have hdir := h.parents q n hq
    rcases prefix_concat_iff.mp hp with heq | hpre
    · exact absurd heq hne
    by_cases hpq : p = q
    · rw [hpq]
      exact hdir
    · exact ih (by simp [hdir]) hpre hpq

theorem mkdirAll_nodes (hmk : h.mkdirAll p = some h') : h'.nodes q = if q <+: p then some .dir else h.nodes q := by
  unfold mkdirAll at hmk
  split at hmk
  · cases hmk
    rfl
  · cases hmk

/-- What `RemoveAll` removes is below the path. -/
theorem prefix_of_removeAll (hq : h.nodes q ≠ none) (hrm : (h.removeAll p).nodes q = none) : p <+: q := by
  by_contra hnot
  apply hq
  rw [← hrm, removeAll]
  exact (if_neg fun hp => hnot hp.1).symm

theorem removeAll_nodes_of_not_prefix (hp : ¬ p <+: q) : (h.removeAll p).nodes q = h.nodes q :=
  if_neg fun hboth => hp hboth.1

end Host

/-! ## The invariant -/

/-- The volumes directory is there, and all volumes ever made are placed. -/
structure Inv (r : Root) : Prop where
  dir : r.host.nodes r.dir = some .dir
  placed : ∀ path ∈ r.objects.map Volume.path, Placed r.dir path

theorem count_paths (i : Nat) (d : Int) : (r.count i d).objects.map Volume.path = r.objects.map Volume.path := by
  apply ext_getElem?
  intro j
  rw [getElem?_map, getElem?_map, Root.count, getElem?_modify]
  cases r.objects[j]? with
  | none => rfl
  | some v =>
    by_cases hij : i = j <;> simp [hij]

theorem Inv.count {r : Root} (h : Inv r) (i : Nat) (d : Int) : Inv (r.count i d) where
  dir := h.dir
  placed := by
    rw [count_paths]
    exact h.placed

/-- A removal fails, gives a use back, or removes the data of a volume and the directory it is in. -/
theorem remove_cases (i : Nat) (r : Root) :
    (remove i r).2 = r ∨ (remove i r).2 = r.count i (-1) ∨
      ∃ v, r.objects[i]? = some v ∧ v.usedCount = 1 ∧ (remove i r).2 = { r.count i (-1) with
        host := (r.host.removeAll (position v.path)).removeAll (position (dir v.path))
        volumes := r.volumes.filter fun e => e.1 ≠ v.name } := by
  unfold remove
  split
  · exact .inl rfl
  next v' hv' =>
    obtain ⟨v, hv, rfl⟩ : ∃ v, r.objects[i]? = some v ∧ { v with usedCount := v.usedCount + -1 } = v' := by
      rw [Root.count, getElem?_modify] at hv'
      simpa using hv'
    split
    case isFalse => exact .inr (.inl rfl)
    case isTrue hzero =>
      have hlast : v.usedCount = 1 := by
        simp only at hzero
        omega
      split
      · exact .inr (.inl rfl)
      next realPath heval =>
        obtain rfl : v.path = realPath := by
          unfold Host.evalSymlinks at heval
          split at heval <;> cases heval
          rfl
        split
        · exact .inr (.inr ⟨v, hv, hlast, rfl⟩)
        · exact .inr (.inl rfl)

theorem create_spec (name : Str) (r : Root) (h : Inv r) (hapart : Apart r (.create name)) :
    Inv (create name r).2 ∧ MadeBelow r (create name r).2 := by
  have hplaced := placed_dataPath r hapart
  obtain ⟨hpos, hbelow, hne⟩ := hplaced.position
  unfold create
  split
  · exact ⟨h.count _ _, fun p => absurd⟩
  split
  · exact ⟨h, fun p => absurd⟩
  next host hmk =>
  have hdir : r.dir <+: position (dataPath r.scope name) := by
    rw [hpos]
    exact hbelow.trans (prefix_append _ _)
  refine ⟨⟨?_, ?_⟩, fun p hnone hsome => ?_⟩
  · exact (Host.mkdirAll_nodes hmk).trans (if_pos hdir)
  · show ∀ path ∈ map _ (_ ++ [_]), _
    rw [map_append]
    exact forall_mem_append.mpr ⟨h.placed, forall_mem_singleton.mpr hplaced⟩
  · have hp : p <+: position (dataPath r.scope name) := by
      by_contra hnot
      apply hsome
      show host.nodes p = none
      rw [Host.mkdirAll_nodes hmk, if_neg hnot, hnone]
    -- what leads to the volumes directory is there already
    have hnot : ¬ p <+: r.dir := by
      intro hpre
      by_cases heq : p = r.dir
      · rw [heq, h.dir] at hnone
        cases hnone
      · rw [Host.dir_of_prefix (by rw [h.dir]; nofun) hpre heq] at hnone
        cases hnone
    rcases prefix_or_prefix_of_prefix hp hdir with hpre | hpre
    · exact absurd hpre hnot
    · exact ⟨hpre, fun heq => hnot (heq ▸ prefix_refl _)⟩

theorem remove_spec (i : Nat) (r : Root) (h : Inv r) (hapart : Apart r (.remove i)) :
    Inv (remove i r).2 ∧ RemovedOwn r i (remove i r).2 := by
  rcases remove_cases i r with heq | heq | ⟨v, hv, hlast, heq⟩
  · rw [heq]
    exact ⟨h, fun p hsome hnone => absurd hnone hsome⟩
  · rw [heq]
    exact ⟨h.count _ _, fun p hsome hnone => absurd hnone hsome⟩
  rw [heq]
  obtain ⟨hpos, hbelow, hne⟩ := (h.placed v.path (mem_map_of_mem (mem_of_getElem? hv))).position
  have hnot : ¬ position (dir v.path) <+: r.dir :=
    fun hpre => hne (hpre.eq_of_length (Nat.le_antisymm hpre.length_le hbelow.length_le))
  have hnot' : ¬ position v.path <+: r.dir := by
    rw [hpos]
    exact fun hpre => hnot ((prefix_append _ _).trans hpre)
  refine ⟨⟨?_, (h.count i (-1)).placed⟩, fun p hsome hnone => ?_⟩
  · show ((r.host.removeAll _).removeAll _).nodes r.dir = some .dir
    rw [Host.removeAll_nodes_of_not_prefix hnot, Host.removeAll_nodes_of_not_prefix hnot', h.dir]
  -- the data is in the directory, so both removals are of what is below the latter
  have hp : position (dir v.path) <+: p := by
    by_cases hfirst : (r.host.removeAll (position v.path)).nodes p = none
    · have hpre := Host.prefix_of_removeAll hsome hfirst
      rw [hpos] at hpre
      exact (prefix_append _ _).trans hpre
    · exact Host.prefix_of_removeAll hfirst hnone
  refine ⟨fun w hw hwp => ?_, .inl (hbelow.trans hp)⟩
  obtain ⟨hvw, hwv⟩ := hapart v hv hlast w hw
  exact (List.prefix_or_prefix_of_prefix hp hwp).elim hvw hwv

theorem step_inv (l : Label) (r' : Root) (h : Inv r) (hapart : Apart r l) (hstep : step r l = some r') : Inv r' := by
  cases l with
  | create name =>
    cases hstep
    exact (create_spec name r h hapart).1
  | remove i =>
    cases hstep
    exact (remove_spec i r h hapart).1
  | change host =>
    simp only [step] at hstep
    split at hstep
    next hdir =>
      cases hstep
      exact ⟨hdir, h.placed⟩
    · cases hstep

theorem inv_new {scope : Str} {rooted : isAbs scope = true} {entries : List { n // Proper n }}
    {host : Host} {r : Root} (h : new scope rooted entries host = some r) : Inv r := by
  unfold new at h
  split at h
  · cases h
  next host' hmk =>
    cases h
    refine ⟨(Host.mkdirAll_nodes hmk).trans (if_pos (prefix_refl _)), fun path hpath => ?_⟩
    rw [map_map] at hpath
    obtain ⟨n, -, rfl⟩ := mem_map.mp hpath
    have hwalk : walk (position (volumesPath scope)) (comps n.1) = position (volumesPath scope) ++ [n.1] := by
      rw [comps_elem n.2.elem.1 n.2.elem.2, walk_proper _ (by simpa using n.2)]
    refine ⟨_, proper_snoc (volumesPath_eq rooted).1 n.2, ?_, prefix_append _ _, by simp [Root.dir]⟩
    rw [← hwalk]
    exact dataPath_eq rooted n.1

/-- As long as created names lead strictly below the volumes directory, and volumes are removed only apart
from all others, what is made is below the volumes directory, and what is removed is below it and in no
other volume. -/
theorem volumes_isolated (scope : Str) (rooted : isAbs scope = true) (entries : List { n // Proper n })
    (host : Host) (r : Root) (h : new scope rooted entries host = some r) (ls : List Label)
    (hapart : Along step Apart r ls) : Along step Isolated r ls := by
  apply along_of_inv (I := Inv) step_inv _ (inv_new h) hapart
  intro r l r' hr hl hstep
  cases l with
  | create name => exact (create_spec name r hr hl).2
  | remove i => exact (remove_spec i r hr hl).2
  | change host => trivial

/-! ## Names that are not apart -/

/-- A host with a directory and what leads to it. -/
def chain (p : List Str) : Host where
  nodes q := if q <+: p then some .dir else none
  root := if_pos nil_prefix
  parents := by
    intro q n hq
    by_cases hp : q ++ [n] <+: p
    · exact if_pos ((prefix_append q [n]).trans hp)
    · exact absurd (if_neg hp) hq

theorem volumes_isolated_twoNames :
    ∃ r, new "/d".toList rfl [] (chain []) = some r ∧
      Along step Isolated r [.create "a".toList, .create "b".toList, .remove 0] :=
  ⟨_, rfl, volumes_isolated "/d".toList rfl [] (chain []) _ rfl _ (by decide)⟩

/-- The name `../x` makes a directory beside the volumes directory. When `a` and `a/b` are there, the
removal of `a` removes the data of `a/b`. -/
theorem volumes_not_isolated :
    ∃ r, new "/d".toList rfl [] (chain []) = some r ∧
      ¬ Along step Isolated r [.create "../x".toList] ∧
      ¬ Along step Isolated r [.create "a".toList, .create "a/b".toList, .remove 0] := by
  refine ⟨_, rfl, fun h => ?_, fun h => ?_⟩
  · have hmade := h.1 ["d".toList, "x".toList] (by decide) (by decide)
    revert hmade
    decide
  · have hremoved := h.2.2.1 ["d".toList, "volumes".toList, "a".toList, "b".toList, "_data".toList]
      (by decide) (by decide)
    revert hremoved
    decide

end DockerEngine.Volumes
