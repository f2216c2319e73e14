import DockerEngine.Volumes.Mounts

/-!
# Paths in mount points: `hasResource` and `checkIfPathIsInAVolume`

A copy into a container asks whether its destination is in a volume and whether that volume may be written.
`hasResource` decides by the relative path whether a path is in a mount point, and is right about it
(`hasResource_iff`). `checkIfPathIsInAVolume` goes through the mount points in the order of a Go map and
answers for the first one that has the path. Mounts may be nested, so this need not be the innermost one.
`checkIfPathIsInAVolume_iff` says that the answer is that of the innermost mount in every order exactly when
all mounts around the path have one mode.
-/

namespace DockerEngine.Volumes

open Filepath List

/-- The mount points of a container, at most one for each destination. Destinations are clean and
absolute. -/
structure MountTable where
  points : List MountPoint
  nodup : (points.map MountPoint.destination).Nodup
  clean : ∀ m ∈ points, isAbs m.destination = true ∧ clean m.destination = m.destination

/-- `hasResource`. -/
def hasResource (m : MountPoint) (absolutePath : Str) : Bool :=
  match rel m.destination absolutePath with
  | none => false
  | some relPath => decide (relPath ≠ dotdot) && !hasPrefix relPath (dotdot ++ ['/'])

/-- `ErrVolumeReadonly`. -/
inductive VolumeErr where
  | readonly
  deriving DecidableEq, Repr

/-- `checkIfPathIsInAVolume`, over the mount points in the order of the map. -/
def checkIfPathIsInAVolume : List MountPoint → Str → Except VolumeErr Bool
  | [], _ => .ok false
  | mnt :: rest, absPath =>
    if hasResource mnt absPath then
      if mnt.rw then .ok true else .error .readonly
    else checkIfPathIsInAVolume rest absPath

/-- The directory is the path or above it. -/
def AtOrAbove (dir path : Str) : Prop := comps dir <+: comps path

/-- The mount point is at or above the path, and no other such has a longer destination. -/
structure Innermost (t : MountTable) (path : Str) (m : MountPoint) : Prop where
  mem : m ∈ t.points
  above : AtOrAbove m.destination path
  longest : ∀ m' ∈ t.points, AtOrAbove m'.destination path →
    (comps m'.destination).length ≤ (comps m.destination).length

/-- The answer is that of the innermost mount. -/
structure Obeys (t : MountTable) (path : Str) (answer : Except VolumeErr Bool) : Prop where
  writable : answer = .ok true ↔ ∃ m, Innermost t path m ∧ m.rw = true
  readonly : answer = .error .readonly ↔ ∃ m, Innermost t path m ∧ m.rw = false
  outside : answer = .ok false ↔ ¬ ∃ m, Innermost t path m

/-! ## The relative path -/

variable {m : MountPoint}

/-- A path has no `..` to climb when it is below, and climbs when it is not. -/
theorem hasResource_absPath {ds ps : List Str} (hd : AllProper ds) (hp : AllProper ps) (hm : m.destination = absPath ds) :
    hasResource m (absPath ps) ↔ ds <+: ps := by
  rw [hasResource, hm, rel_absPath hd hp]
  by_cases heq : ps = ds
  · rw [if_pos heq, heq]
    simp only [prefix_refl, iff_true]
    decide
  · rw [if_neg heq]
    obtain ⟨common, -, hps⟩ := stripCommon_spec ds ps
    have htail : AllProper (stripCommon ds ps).2 := fun n hn => hp n (hps ▸ mem_append_right common hn)
    have helems := climb_elems (k := (stripCommon ds ps).1.length) htail
    rw [← stripCommon_fst_eq_nil, Bool.and_eq_true, decide_eq_true_iff, Bool.not_eq_true',
      ← Bool.not_eq_true, hasPrefix_up helems]
    cases hfst : (stripCommon ds ps).1 with
    | nil =>
      simp only [length_nil, replicate_zero, nil_append, iff_true]
      constructor
      · intro hup
        have hcomps := congrArg comps hup
        rw [comps_joinSlash fun n hn => (htail n hn).elem, comps_elem dotdot_elem.1 dotdot_elem.2] at hcomps
        exact (htail dotdot (by simp [hcomps])).2.2.1 rfl
      · rintro ⟨t, -, ht⟩
        exact (htail dotdot (by simp [ht])).2.2.1 rfl
    | cons b bs =>
      simp only [length_cons, replicate_succ, cons_append, reduceCtorEq, iff_false]
      rintro ⟨hne, hnot⟩
      apply hnot
      refine ⟨_, fun hnil => hne ?_, rfl⟩
      rw [hnil, joinSlash_singleton]

/-- `hasResource` says whether the mount point is at or above the path. -/
theorem hasResource_iff {t : MountTable} (hm : m ∈ t.points) {path : Str}
    (habs : isAbs path) (hclean : clean path = path) :
    hasResource m path ↔ AtOrAbove m.destination path := by
  obtain ⟨ps, hp, rfl⟩ := exists_absPath habs hclean
  obtain ⟨ds, hd, hdest⟩ := exists_absPath (t.clean m hm).1 (t.clean m hm).2
  rw [hasResource_absPath hd hp hdest, AtOrAbove, hdest, comps_absPath_proper hd, comps_absPath_proper hp]

/-! ## The innermost mount -/

section Innermost

variable {t : MountTable} {path : Str}

/-- Two innermost mounts are one. -/
theorem Innermost.unique {m m' : MountPoint} (h : Innermost t path m) (h' : Innermost t path m') : m = m' := by
  have hlen : (comps m.destination).length = (comps m'.destination).length :=
    Nat.le_antisymm (h'.longest m h.mem h.above) (h.longest m' h'.mem h'.above)
  have hcomps : comps m.destination = comps m'.destination :=
    (prefix_of_prefix_length_le h.above h'.above hlen.le).eq_of_length hlen
  obtain ⟨ds, hd, hdest⟩ := exists_absPath (t.clean m h.mem).1 (t.clean m h.mem).2
  obtain ⟨ds', hd', hdest'⟩ := exists_absPath (t.clean m' h'.mem).1 (t.clean m' h'.mem).2
  rw [hdest, hdest', comps_absPath_proper hd, comps_absPath_proper hd'] at hcomps
  apply inj_on_of_nodup_map t.nodup h.mem h'.mem
  rw [hdest, hdest', hcomps]

/-- Where a mount is around the path, one of them is the innermost. -/
theorem exists_innermost (hm : m ∈ t.points) (habove : AtOrAbove m.destination path) : ∃ i, Innermost t path i := by
  classical
  obtain ⟨i, hi, hmax⟩ := (t.points.toFinset.filter fun m => AtOrAbove m.destination path).exists_max_image
    (fun m => (comps m.destination).length) ⟨m, by simp [hm, habove]⟩
  simp only [Finset.mem_filter, mem_toFinset, and_imp] at hi hmax
  exact ⟨i, hi.1, hi.2, hmax⟩

end Innermost

/-! ## The answer -/

/-- The first mount that has the path decides. -/
theorem checkIfPathIsInAVolume_eq (points : List MountPoint) (path : Str) :
    checkIfPathIsInAVolume points path =
      match points.find? fun m => hasResource m path with
      | none => .ok false
      | some m => if m.rw then .ok true else .error .readonly := by
  induction points with
  | nil => rfl
  | cons m rest ih =>
    rw [checkIfPathIsInAVolume]
    by_cases hm : hasResource m path
    · rw [if_pos hm, find?_cons_of_pos (p := fun m => hasResource m path) hm]
    · rw [if_neg hm, find?_cons_of_neg (p := fun m => hasResource m path) hm, ih]

section Answer

variable {t : MountTable} {path : Str}

/-- The answer of a mount with the mode of the innermost one. -/
theorem obeys_of_mode {i : MountPoint} (hi : Innermost t path i) :
    Obeys t path (if i.rw then .ok true else .error .readonly) := by
  have hiff : ∀ b, (∃ m, Innermost t path m ∧ m.rw = b) ↔ i.rw = b := by
    intro b
    constructor
    · rintro ⟨m, hm, hb⟩
      rw [hi.unique hm]
      exact hb
    · exact fun hb => ⟨i, hi, hb⟩
  have hex : ∃ m, Innermost t path m := ⟨i, hi⟩
  cases hrw : i.rw with
  | true => exact ⟨by simp [hiff, hrw], by simp [hiff, hrw], by simp [hex]⟩
  | false => exact ⟨by simp [hiff, hrw], by simp [hiff, hrw], by simp [hex]⟩

theorem obeys_outside (h : ¬ ∃ m, Innermost t path m) : Obeys t path (.ok false) where
  writable := ⟨nofun, fun ⟨m, hm, _⟩ => absurd ⟨m, hm⟩ h⟩
  readonly := ⟨nofun, fun ⟨m, hm, _⟩ => absurd ⟨m, hm⟩ h⟩
  outside := ⟨fun _ => h, fun _ => rfl⟩

/-- The answer obeys the innermost mount, whatever the order of the map, exactly when all mounts at or above
the path have one mode. -/
theorem checkIfPathIsInAVolume_iff (t : MountTable) (path : Str) (habs : isAbs path = true)
    (hclean : clean path = path) :
    (∀ order, order.Perm t.points → Obeys t path (checkIfPathIsInAVolume order path)) ↔
      ∀ m ∈ t.points, ∀ m' ∈ t.points, AtOrAbove m.destination path → AtOrAbove m'.destination path →
        m.rw = m'.rw := by
  constructor
  · intro hobeys
    -- a mount around the path that comes first has the mode of the innermost
    have hmode : ∀ m ∈ t.points, AtOrAbove m.destination path → ∃ i, Innermost t path i ∧ i.rw = m.rw := by
      intro m hm habove
      have hfirst := hobeys (m :: t.points.erase m) (perm_cons_erase hm).symm
      rw [checkIfPathIsInAVolume, if_pos ((hasResource_iff hm habs hclean).mpr habove)] at hfirst
      cases hrw : m.rw with
      | true =>
        rw [hrw] at hfirst
        exact hfirst.writable.mp rfl
      | false =>
        rw [hrw] at hfirst
        exact hfirst.readonly.mp rfl
    intro m hm m' hm' habove habove'
    obtain ⟨i, hi, hrw⟩ := hmode m hm habove
    obtain ⟨i', hi', hrw'⟩ := hmode m' hm' habove'
    rw [← hrw, ← hrw', hi.unique hi']
  · intro hsame order hperm
    rw [checkIfPathIsInAVolume_eq]
    cases hfind : order.find? fun m => hasResource m path with
    | none =>
      apply obeys_outside
      rintro ⟨m, hm⟩
      have hnot := find?_eq_none.mp hfind m (hperm.mem_iff.mpr hm.mem)
      exact hnot ((hasResource_iff hm.mem habs hclean).mpr hm.above)
    | some m =>
      have hm : m ∈ t.points := hperm.mem_iff.mp (mem_of_find?_eq_some hfind)
      have habove := (hasResource_iff hm habs hclean).mp (find?_some (p := fun m => hasResource m path) hfind)
      obtain ⟨i, hi⟩ := exists_innermost hm habove
      show Obeys t path (if m.rw then .ok true else .error .readonly)
      rw [hsame m hm i hi.mem habove hi.above]
      exact obeys_of_mode hi

end Answer

/-- A writable mount on `/a` and a read-only one in it, on `/a/b`. -/
def nestedMounts : MountTable where
  points := [⟨[], "/a".toList, [], true, "/x".toList, none⟩, ⟨[], "/a/b".toList, [], false, "/y".toList, none⟩]
  nodup := by decide
  clean := by decide

theorem checkIfPathIsInAVolume_outer :
    Obeys nestedMounts "/a/c".toList (checkIfPathIsInAVolume nestedMounts.points.reverse "/a/c".toList) := by
  apply (checkIfPathIsInAVolume_iff nestedMounts "/a/c".toList (by decide) (by decide)).mpr
  · unfold AtOrAbove
    decide
  · exact reverse_perm _

/-- The path `/a/b/c` is in the read-only mount, and the answer is that it may be written. -/
theorem checkIfPathIsInAVolume_inner :
    checkIfPathIsInAVolume nestedMounts.points "/a/b/c".toList = .ok true ∧
      ¬ Obeys nestedMounts "/a/b/c".toList (checkIfPathIsInAVolume nestedMounts.points "/a/b/c".toList) := by
  have hanswer : checkIfPathIsInAVolume nestedMounts.points "/a/b/c".toList = .ok true := by decide
  refine ⟨hanswer, fun h => ?_⟩
  obtain ⟨m, hm, hrw⟩ := h.writable.mp hanswer
  have hlong := hm.longest ⟨[], "/a/b".toList, [], false, "/y".toList, none⟩ (by decide)
    (by unfold AtOrAbove; decide)
  have hmem := hm.mem
  simp only [nestedMounts, mem_cons, not_mem_nil, or_false] at hmem
  rcases hmem with rfl | rfl
  · revert hlong
    decide
  · cases hrw

end DockerEngine.Volumes
