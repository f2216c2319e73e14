import DockerEngine.Lib.NameTree
import DockerEngine.Lib.Proc
import DockerEngine.Volumes.Local

/-!
# Mount points and the uses of volumes

A container mounts volumes: those of other containers (`--volumes-from`), those named by the client
(`-v name:/dst`), and those of its image. `registerMountPoints` and `Create` ask the driver for each of them,
which counts a use; the removal of a container with its volumes gives the uses back. The count keeps the data
of a volume as long as it is at least the number of mount points that refer to the volume (`Covers`).

A mount point named by the client also has the path of the volume as its source. When another container
takes it over, the source is copied and the driver is not asked. The data is then removed with the first
container, while the second one still mounts it (`remove_mounted`). `mounted_kept` says that this does not
happen as long as volumes are taken only from containers without such mount points, and no volume lies in
the directory of another one.

All volumes are of the local driver. Mount points of the host's own directories are not modelled. The order
in which a container's mount points are visited changes freely.
-/

namespace DockerEngine.Volumes

open Filepath Trace List Proc Option NameTree

/-! ## The daemon -/

/-- `mountPoint`. -/
structure MountPoint where
  name : Str
  destination : Str
  driver : Str
  rw : Bool
  source : Str
  volume : Option Nat
  deriving DecidableEq, Repr

/-- `mountPoint.Path`. -/
def MountPoint.path (r : Root) (m : MountPoint) : Str :=
  match m.volume with
  | some i => (r.objects[i]?.map Volume.path).getD []
  | none => m.source

/-- A container with its mount points. -/
structure Container where
  id : Str
  mountPoints : List MountPoint
  deriving DecidableEq, Repr

/-- The daemon: its containers, and the volume driver. -/
structure Daemon where
  root : Root
  containers : List Container

/-- `volume.DefaultDriverName`. -/
def localDriver : Str := "local".toList

/-- `-v name:/dst[:mode]`, parsed. -/
structure Bind where
  name : Str
  destination : Str
  rw : Bool
  deriving DecidableEq, Repr

/-- The errors of a creation. -/
inductive MountErr where
  | driver (e : Err)
  | noSuchContainer (id : Str)
  /-- "Duplicate bind mount " + destination. -/
  | duplicate (destination : Str)
  deriving DecidableEq, Repr

/-- `createVolume`. -/
def createVolume (name : Str) : Proc Root MountErr Nat := mapError .driver (create name : Proc Root Err Nat)

/-- A mount point is put in the place of the one with its destination. -/
def setPoint (m : MountPoint) (points : List MountPoint) : List MountPoint :=
  points.filter (fun m' => m'.destination ≠ m.destination) ++ [m]

/-- A mount point of another container is taken over. -/
def addFrom (rw : Bool) (points : List MountPoint) (m : MountPoint) : Proc Root MountErr (List MountPoint) :=
  if m.source = [] then do
    let i ← createVolume m.name
    pure (setPoint { m with rw := m.rw && rw, volume := some i } points)
  else pure (setPoint { m with rw := m.rw && rw, volume := none } points)

/-- A bind mount of the client. The destinations so far come along. -/
def addBind (st : List Str × List MountPoint) (b : Bind) : Proc Root MountErr (List Str × List MountPoint) :=
  if b.destination ∈ st.1 then fail (.duplicate b.destination)
  else if b.name = [] then
    pure (b.destination :: st.1, setPoint ⟨b.name, b.destination, localDriver, b.rw, [], none⟩ st.2)
  else do
    let i ← createVolume b.name
    let path ← read fun r => (r.objects[i]?.map Volume.path).getD []
    pure (b.destination :: st.1, setPoint ⟨b.name, b.destination, localDriver, b.rw, path, some i⟩ st.2)

section

variable (d : Daemon) (containers : List Container)

/-- `registerMountPoints` of a new container. -/
def registerMountPoints (volumesFrom : List (Str × Bool)) (binds : List Bind) :
    Proc Root MountErr (List MountPoint) := do
  let points ← volumesFrom.foldlM (fun points v =>
    match containers.find? fun c => c.id = v.1 with
    | none => fail (.noSuchContainer v.1)
    | some c => c.mountPoints.foldlM (addFrom v.2) points) []
  let st ← binds.foldlM addBind ([], points)
  pure st.2

/-- A volume of the image, with its name and its destination. -/
def addVolume (points : List MountPoint) (v : Str × Str) : Proc Root MountErr (List MountPoint) :=
  if points.any fun m => m.destination = v.2 then pure points
  else do
    let i ← createVolume v.1
    pure (setPoint ⟨v.1, v.2, localDriver, true, [], some i⟩ points)

/-- The mount points of a container that `Create` makes. -/
def createMountPoints (volumesFrom : List (Str × Bool)) (binds : List Bind)
    (volumes : List (Str × Str)) : Proc Root MountErr (List MountPoint) := do
  let points ← registerMountPoints containers volumesFrom binds
  volumes.foldlM addVolume points

/-- `prepareMountPoints` of a container loaded from disk. -/
def prepareMountPoints (points : List MountPoint) : Proc Root MountErr (List MountPoint) :=
  points.foldlM (fun points m => do
    let i ← createVolume m.name
    pure (points ++ [{ m with volume := some i }])) []

/-- `removeVolume`. -/
def removeVolume (i : Nat) : Proc Root Err Unit := remove i

/-- `removeMountPoints`. -/
def removeMountPoints : List MountPoint → Proc Root Err Unit
  | [] => pure ()
  | m :: rest =>
    match m.volume with
    | none => removeMountPoints rest
    | some i => do
      removeVolume i
      removeMountPoints rest

/-! ## Runs -/

/-- What can happen. -/
inductive Event where
  | load (id : Str) (points : List MountPoint)
  | create (id : Str) (volumesFrom : List (Str × Bool)) (binds : List Bind) (volumes : List (Str × Str))
  | remove (id : Str) (volumes : Bool)
  /-- The mount points of a container are visited in another order. -/
  | reorder (id : Str) (points : List MountPoint)

/-- All mount points of a daemon's containers. -/
def allPoints : List MountPoint := containers.flatMap Container.mountPoints

/-- The daemon with a new container, if its mount points could be made. -/
def Daemon.add (id : Str) (m : Proc Root MountErr (List MountPoint)) : Option Daemon :=
  if d.containers.any fun c => c.id = id then none
  else
    match m d.root with
    | (.ok points, root) => some ⟨root, ⟨id, points⟩ :: d.containers⟩
    | (.error _, _) => none

/-- What an event does. Steps that fail are not part of a run. -/
def Daemon.next : Event → Option Daemon
  | .load id points =>
    if points.any fun m => m.driver = [] then none else d.add id (prepareMountPoints points)
  | .create id volumesFrom binds volumes =>
    d.add id (createMountPoints d.containers volumesFrom binds volumes)
  | .remove id volumes =>
    match d.containers.find? fun c => c.id = id with
    | none => none
    | some c =>
      let rest := d.containers.filter fun c' => c'.id ≠ id
      if volumes then some ⟨(removeMountPoints c.mountPoints d.root).2, rest⟩ else some ⟨d.root, rest⟩
  | .reorder id points =>
    if ∀ c ∈ d.containers, c.id = id → c.mountPoints.Perm points then
      some { d with containers := d.containers.map fun c =>
        if c.id = id then { c with mountPoints := points } else c }
    else none

/-- What the remaining containers mount is not removed. -/
def Kept : Event → Prop
  | .remove id volumes => ∀ d' ∈ d.next (.remove id volumes), ∀ m ∈ allPoints d'.containers,
      d.root.host.nodes (position (m.path d.root)) ≠ none → d'.root.host.nodes (position (m.path d.root)) ≠ none
  | _ => True

/-- No volume of the map lies in the directory that holds the data of another one. -/
def Separate (r : Root) : Prop :=
  ∀ e ∈ r.volumes, ∀ e' ∈ r.volumes, e.2 ≠ e'.2 → ∀ v ∈ r.objects[e.2]?, ∀ w ∈ r.objects[e'.2]?,
    ¬ position (dir v.path) <+: position w.path

/-- Volumes are taken from containers whose mount points have no source, and removed when they are
separate. -/
def Sourceless : Event → Prop
  | .create _ volumesFrom _ _ => ∀ v ∈ volumesFrom, ∀ c ∈ d.containers, c.id = v.1 →
      ∀ m ∈ c.mountPoints, m.source = []
  | .remove _ volumes => volumes = true → Separate d.root
  | _ => True

end

instance decidableKept (d : Daemon) (e : Event) : Decidable (Kept d e) := by
  cases e <;> unfold Kept <;> infer_instance

instance decidableSeparate (r : Root) : Decidable (Separate r) := by
  unfold Separate
  infer_instance

instance decidableSourceless (d : Daemon) (e : Event) : Decidable (Sourceless d e) := by
  cases e <;> unfold Sourceless <;> infer_instance

/-! ## The table of the driver -/

/-- The volumes ever made and the map of the driver fit together: a volume has the data path of its name,
an entry of the map leads to a volume of its name, and a volume in use is in the map. -/
structure Registry (r : Root) : Prop where
  path : ∀ v ∈ r.objects, v.path = dataPath r.scope v.name
  named : ∀ name i, r.volumes.lookup name = some i → ∃ v, r.objects[i]? = some v ∧ v.name = name
  live : ∀ i v, r.objects[i]? = some v → 1 ≤ v.usedCount → r.volumes.lookup v.name = some i

section Count

variable {r : Root} {i j : Nat} {d : Int}

theorem count_getElem? (r : Root) (i j : Nat) (d : Int) :
    (r.count i d).objects[j]? = r.objects[j]?.map fun v =>
      if i = j then { v with usedCount := v.usedCount + d } else v := by
  rw [Root.count, getElem?_modify]
  cases r.objects[j]? with
  | none => rfl
  | some v => split <;> rfl

theorem count_path (r : Root) (i j : Nat) (d : Int) :
    (r.count i d).objects[j]?.map Volume.path = r.objects[j]?.map Volume.path := by
  rw [← getElem?_map, count_paths, getElem?_map]

/-- A change of a count is seen in the counted volume only. -/
theorem getElem?_of_count {w : Volume} (h : (r.count i d).objects[j]? = some w) :
    ∃ v, r.objects[j]? = some v ∧ w.name = v.name ∧ w.path = v.path ∧
      w.usedCount = if i = j then v.usedCount + d else v.usedCount := by
  rw [count_getElem?, map_eq_some_iff] at h
  obtain ⟨v, hv, rfl⟩ := h
  refine ⟨v, hv, ?_⟩
  split <;> exact ⟨rfl, rfl, rfl⟩

theorem Registry.count (h : Registry r) (hlive : ∀ v, r.objects[i]? = some v → 1 ≤ v.usedCount + d →
    r.volumes.lookup v.name = some i) : Registry (r.count i d) where
  path := by
    intro w hw
    obtain ⟨j, hj⟩ := mem_iff_getElem?.mp hw
    obtain ⟨v, hv, hname, hpath, -⟩ := getElem?_of_count hj
    rw [hname, hpath]
    exact h.path v (mem_of_getElem? hv)
  named := by
    intro name j hj
    obtain ⟨v, hv, hname⟩ := h.named name j hj
    refine ⟨_, (count_getElem? r i j d).trans (congrArg _ hv), ?_⟩
    simp only
    split <;> exact hname
  live := by
    intro j w hw hcount
    obtain ⟨v, hv, hname, -, huse⟩ := getElem?_of_count hw
    rw [hname]
    rw [huse] at hcount
    split at hcount
    next heq =>
      subst heq
      exact hlive v hv hcount
    · exact h.live j v hv hcount

end Count

/-! ## Mount points and counts -/

/-- The count of every volume is at least the number of mount points that refer to it, and a mount point
that refers to none has no source. -/
structure Covers (r : Root) (ms : List MountPoint) : Prop where
  counted : ∀ i v, r.objects[i]? = some v → (ms.countP (fun m => m.volume = some i) : Int) ≤ v.usedCount
  made : ∀ m ∈ ms, ∀ i, m.volume = some i → i < r.objects.length
  sourceless : ∀ m ∈ ms, m.volume = none → m.source = []

variable {m : MountPoint} {i : Nat} {v : Volume}

section Covers

variable {r : Root} {ms ms' : List MountPoint}

/-- Mount points may go. -/
theorem Covers.subperm (h : Covers r ms) (hsub : ms'.Subperm ms) : Covers r ms' where
  counted i v hv := by
    have hle := hsub.countP_le fun m => decide (m.volume = some i)
    have := h.counted i v hv
    omega
  made m hm := h.made m (hsub.subset hm)
  sourceless m hm := h.sourceless m (hsub.subset hm)

/-- A mount point without a volume needs no use. -/
theorem Covers.cons_none (h : Covers r ms) (hm : m.volume = none) (hs : m.source = []) : Covers r (m :: ms) where
  counted i v hv := by
    rw [countP_cons_of_neg (by simp [hm])]
    exact h.counted i v hv
  made := forall_mem_cons.mpr ⟨by simp [hm], h.made⟩
  sourceless := forall_mem_cons.mpr ⟨fun _ => hs, h.sourceless⟩

theorem setPoint_subperm (m : MountPoint) (points all : List MountPoint) :
    (setPoint m points ++ all).Subperm (m :: (points ++ all)) := by
  have hperm : (setPoint m points ++ all).Perm
      (m :: (points.filter (fun m' => m'.destination ≠ m.destination) ++ all)) := by
    rw [setPoint, append_assoc, singleton_append]
    exact perm_middle
  apply hperm.subperm.trans
  apply List.Sublist.subperm
  exact (filter_sublist.append_right all).cons_cons m

theorem countP_volume (hm : m.volume = some i) (j : Nat) :
    (m :: ms).countP (fun m => m.volume = some j) = ms.countP (fun m => m.volume = some j) + if i = j then 1 else 0 := by
  simp [countP_cons, hm]

/-- A use of a volume is counted for a mount point that refers to it. -/
theorem Covers.use (h : Covers r ms) (hv : r.objects[i]? = some v)
    (hm : m.volume = some i) : Covers (r.count i 1) (m :: ms) where
  counted j w hw := by
    obtain ⟨v', hv', -, -, huse⟩ := getElem?_of_count hw
    have hle := h.counted j v' hv'
    rw [countP_volume hm, huse]
    split <;> omega
  made := by
    rw [Root.count, length_modify]
    refine forall_mem_cons.mpr ⟨fun k hk => ?_, h.made⟩
    cases hm.symm.trans hk
    exact (List.getElem?_eq_some_iff.mp hv).1
  sourceless := forall_mem_cons.mpr ⟨by simp [hm], h.sourceless⟩

/-- A use of a volume is given back with a mount point that refers to it. -/
theorem Covers.release (hm : m.volume = some i) (h : Covers r (m :: ms)) : Covers (r.count i (-1)) ms where
  counted j w hw := by
    obtain ⟨v, hv, -, -, huse⟩ := getElem?_of_count hw
    have hle := h.counted j v hv
    rw [countP_volume hm] at hle
    rw [huse]
    revert hle
    split <;> intro hle <;> omega
  made m' hm' k hk := by
    rw [Root.count, length_modify]
    exact h.made m' (mem_cons_of_mem m hm') k hk
  sourceless m' hm' := h.sourceless m' (mem_cons_of_mem m hm')

end Covers

/-! ## A new volume -/

section New

variable {r : Root} {name : Str} {host : Host}

/-- The driver with a new volume. -/
def Root.add (r : Root) (name : Str) (host : Host) : Root :=
  { r with
    host
    objects := r.objects ++ [⟨name, dataPath r.scope name, 1⟩]
    volumes := (name, r.objects.length) :: r.volumes }

theorem add_getElem? {j : Nat} : (r.add name host).objects[j]? = some v ↔
    r.objects[j]? = some v ∨ j = r.objects.length ∧ ⟨name, dataPath r.scope name, 1⟩ = v := by
  show (r.objects ++ [_])[j]? = some v ↔ _
  rcases Nat.lt_trichotomy j r.objects.length with hlt | heq | hgt
  · rw [getElem?_append_left hlt]
    constructor
    · exact .inl
    · rintro (hv | ⟨heq, -⟩)
      · exact hv
      · omega
  · subst heq
    rw [getElem?_concat_length, getElem?_eq_none (Nat.le_refl _)]
    simp
  · rw [getElem?_eq_none (by simp; omega), getElem?_eq_none (by omega)]
    simp
    omega

theorem Registry.add (h : Registry r) (hnone : r.volumes.lookup name = none) : Registry (r.add name host) where
  path := forall_mem_append.mpr ⟨h.path, forall_mem_singleton.mpr rfl⟩
  named name' j hj := by
    by_cases heq : name' = name
    · subst heq
      rw [Root.add, lookup_cons_self] at hj
      cases hj
      exact ⟨_, add_getElem?.mpr (.inr ⟨rfl, rfl⟩), rfl⟩
    · rw [Root.add, lookup_cons, beq_eq_false_iff_ne.mpr heq] at hj
      obtain ⟨v, hv, hname⟩ := h.named name' j hj
      exact ⟨v, add_getElem?.mpr (.inl hv), hname⟩
  live j v hv hcount := by
    rcases add_getElem?.mp hv with hv | ⟨rfl, rfl⟩
    · have hlive := h.live j v hv hcount
      have hne : v.name ≠ name := by
        rintro rfl
        rw [hlive] at hnone
        cases hnone
      rw [Root.add, lookup_cons, beq_eq_false_iff_ne.mpr hne]
      exact hlive
    · exact lookup_cons_self

theorem Covers.add {ms : List MountPoint} (h : Covers r ms)
    (hm : m.volume = some r.objects.length) : Covers (r.add name host) (m :: ms) where
  counted j v hv := by
    rcases add_getElem?.mp hv with hv | ⟨rfl, rfl⟩
    · have hlt := (List.getElem?_eq_some_iff.mp hv).1
      rw [countP_cons_of_neg (by simp [hm]; omega)]
      exact h.counted j v hv
    · -- no mount point refers to it yet
      have hzero : ms.countP (fun m => m.volume = some r.objects.length) = 0 := by
        rw [countP_eq_zero]
        intro m' hm' heq
        have := h.made m' hm' _ (by simpa using heq)
        omega
      rw [countP_cons_of_pos (by simp [hm]), hzero]
      rfl
  made := by
    have hlen : (r.add name host).objects.length = r.objects.length + 1 := by simp [Root.add]
    rw [hlen]
    refine forall_mem_cons.mpr ⟨fun k hk => ?_, fun m' hm' k hk => Nat.lt_succ_of_lt (h.made m' hm' k hk)⟩
    cases hm.symm.trans hk
    exact Nat.lt_succ_self _
  sourceless := forall_mem_cons.mpr ⟨by simp [hm], h.sourceless⟩

/-- Asking for a volume counts a use of it. -/
theorem createVolume_spec (name : Str) (ms : List MountPoint) :
    Triple (fun r => Registry r ∧ Covers r ms) (createVolume name)
      (fun i r => Registry r ∧ ∀ m : MountPoint, m.volume = some i → Covers r (m :: ms))
      (fun _ => True) := by
  apply Triple.mapError
  rintro r ⟨hreg, hcov⟩
  refine ⟨fun i r' hcreate => ?_, fun _ _ _ => trivial⟩
  unfold create at hcreate
  cases hlookup : r.volumes.lookup name with
  | some j =>
    rw [hlookup] at hcreate
    cases hcreate
    obtain ⟨v, hv, hname⟩ := hreg.named name _ hlookup
    refine ⟨hreg.count fun v' hv' _ => ?_, fun m => hcov.use hv⟩
    rw [hv] at hv'
    cases hv'
    rw [hname]
    exact hlookup
  | none =>
    simp only [hlookup] at hcreate
    cases hmk : r.host.mkdirAll (position (dataPath r.scope name)) with
    | none =>
      rw [hmk] at hcreate
      cases hcreate
    | some host =>
      rw [hmk] at hcreate
      cases hcreate
      exact ⟨hreg.add hlookup, fun m => hcov.add⟩

end New

/-! ## The mount points of a new container -/

section Points

variable {all : List MountPoint}

/-- What holds while mount points are made: the counts cover them and those there are. -/
def Counted (all : List MountPoint) (points : List MountPoint) (r : Root) : Prop :=
  Registry r ∧ Covers r (points ++ all)

/-- A mount point for a new use. -/
theorem createVolume_setPoint (name : Str) (points : List MountPoint) (f : Nat → MountPoint)
    (hf : ∀ i, (f i).volume = some i) :
    Triple (Counted all points) (createVolume name)
      (fun i => Counted all (setPoint (f i) points)) (fun _ => True) := by
  apply (createVolume_spec name (points ++ all)).post
  rintro i r ⟨hreg, hcov⟩
  exact ⟨hreg, (hcov (f i) (hf i)).subperm (setPoint_subperm _ _ _)⟩

theorem addBind_counted (st : List Str × List MountPoint) (b : Bind) :
    Triple (Counted all st.2) (addBind st b) (fun st => Counted all st.2) (fun _ => True) := by
  unfold addBind
  split
  · exact .fail _ fun _ _ => trivial
  split
  · apply Triple.pure
    rintro r ⟨hreg, hcov⟩
    exact ⟨hreg, (hcov.cons_none rfl rfl).subperm (setPoint_subperm _ _ _)⟩
  · apply (createVolume_spec b.name (st.2 ++ all)).bind
    intro i
    apply Triple.read_bind
    intro path
    apply Triple.pure
    rintro r ⟨⟨hreg, hcov⟩, -⟩
    exact ⟨hreg, (hcov _ rfl).subperm (setPoint_subperm _ _ _)⟩

theorem createMountPoints_counted {containers : List Container} {volumesFrom : List (Str × Bool)}
    (hfrom : ∀ v ∈ volumesFrom, ∀ c ∈ containers, c.id = v.1 → ∀ m ∈ c.mountPoints, m.source = [])
    (binds : List Bind) (volumes : List (Str × Str)) :
    Triple (Counted all []) (createMountPoints containers volumesFrom binds volumes) (Counted all)
      (fun _ => True) := by
  have hpoints : Triple (Counted all []) (volumesFrom.foldlM (fun points v =>
      match containers.find? fun c => c.id = v.1 with
      | none => fail (.noSuchContainer v.1)
      | some c => c.mountPoints.foldlM (addFrom v.2) points) []) (Counted all) (fun _ => True) := by
    apply Triple.foldlM
    intro v hv points
    split
    · exact .fail _ fun _ _ => trivial
    next c hc =>
      have hid : c.id = v.1 := by simpa using find?_some hc
      apply Triple.foldlM
      intro m hm points
      rw [addFrom, if_pos (hfrom v hv c (mem_of_find?_eq_some hc) hid m hm)]
      exact (createVolume_setPoint m.name points (fun i => { m with rw := m.rw && v.2, volume := some i })
        fun _ => rfl).bind fun _ => .pure _ fun _ h => h
  apply Triple.bind (Q := Counted all)
  · apply hpoints.bind
    intro points
    apply Triple.bind (Q := fun st => Counted all st.2)
    · exact Triple.foldlM (I := fun st => Counted all st.2) binds
        (fun b _ st => addBind_counted st b) ([], points)
    · intro st
      exact .pure _ fun _ h => h
  · intro points
    refine .foldlM volumes (fun v _ points => ?_) points
    unfold addVolume
    split
    · exact .pure _ fun _ h => h
    · exact (createVolume_setPoint v.1 points (fun i => ⟨v.1, v.2, localDriver, true, [], some i⟩)
        fun _ => rfl).bind fun _ => .pure _ fun _ h => h

theorem prepareMountPoints_counted (points : List MountPoint) :
    Triple (Counted all []) (prepareMountPoints points) (Counted all) (fun _ => True) := by
  apply Triple.foldlM
  intro m _ points
  apply (createVolume_spec m.name (points ++ all)).bind
  intro i
  apply Triple.pure
  rintro r ⟨hreg, hcov⟩
  refine ⟨hreg, (hcov { m with volume := some i } rfl).subperm (List.Perm.subperm ?_)⟩
  rw [append_assoc, singleton_append]
  exact perm_middle

end Points

/-! ## Removal -/

section Remove

variable {r : Root} {ms : List MountPoint}

/-- What the mount points of a list refer to is there as before. -/
def KeptAll (ms : List MountPoint) (r r' : Root) : Prop :=
  ∀ m ∈ ms, m.path r' = m.path r ∧
    (r.host.nodes (position (m.path r)) ≠ none → r'.host.nodes (position (m.path r)) ≠ none)

theorem path_count (m : MountPoint) (r : Root) (i : Nat) (d : Int) : m.path (r.count i d) = m.path r := by
  unfold MountPoint.path
  split
  · rw [count_path]
  · rfl

theorem Separate.of_subset {r' : Root} (h : Separate r) (hvol : ∀ e ∈ r'.volumes, e ∈ r.volumes)
    (hobj : ∀ j : Nat, r'.objects[j]?.map Volume.path = r.objects[j]?.map Volume.path) : Separate r' := by
  intro e he e' he' hne v hv w hw
  have hpath : ∀ {j : Nat} {v : Volume}, v ∈ r'.objects[j]? → ∃ v₀, r.objects[j]? = some v₀ ∧ v₀.path = v.path := by
    intro j v hv
    have hj := hobj j
    rw [mem_def.mp hv] at hj
    exact map_eq_some_iff.mp hj.symm
  obtain ⟨v₀, hv₀, hvpath⟩ := hpath hv
  obtain ⟨w₀, hw₀, hwpath⟩ := hpath hw
  rw [← hvpath, ← hwpath]
  exact h e (hvol e he) e' (hvol e' he') hne v₀ hv₀ w₀ hw₀

/-- A volume that a mount point refers to is in use. -/
theorem Covers.in_use (h : Covers r ms) (hm : m ∈ ms)
    (hi : m.volume = some i) : ∃ v, r.objects[i]? = some v ∧ 1 ≤ v.usedCount := by
  have hlt := h.made m hm i hi
  refine ⟨r.objects[i], getElem?_eq_getElem hlt, ?_⟩
  have hle := h.counted i _ (getElem?_eq_getElem hlt)
  have hpos : 0 < ms.countP fun m => m.volume = some i := countP_pos_iff.mpr ⟨m, hm, by simpa using hi⟩
  omega

/-- The removal of the data of one volume leaves what other mount points refer to. -/
theorem remove_kept (hreg : Registry r) (hsep : Separate r)
    (hcov : Covers r (m :: ms)) (hm : m.volume = some i) (hv : r.objects[i]? = some v)
    (hlast : v.usedCount = 1) {m' : MountPoint} (hm' : m' ∈ ms)
    (h : r.host.nodes (position (m'.path r)) ≠ none) :
    ((r.host.removeAll (position v.path)).removeAll (position (dir v.path))).nodes
      (position (m'.path r)) ≠ none := by
  cases hvol : m'.volume with
  | none =>
    have hpath : m'.path r = [] := by
      rw [MountPoint.path, hvol]
      exact hcov.sourceless m' (mem_cons_of_mem m hm') hvol
    rw [hpath]
    show Host.nodes _ [] ≠ none
    rw [Host.root]
    nofun
  | some j =>
    obtain ⟨w, hw, huse⟩ := hcov.in_use (mem_cons_of_mem m hm') hvol
    have hpath : m'.path r = w.path := by simp [MountPoint.path, hvol, hw]
    -- two mount points would need two uses
    have hne : i ≠ j := by
      rintro rfl
      have hle := hcov.counted i v hv
      rw [countP_cons_of_pos (by simpa using hm)] at hle
      have hpos : 0 < ms.countP fun m => m.volume = some i := countP_pos_iff.mpr ⟨m', hm', by simpa using hvol⟩
      omega
    have hnot : ¬ position (dir v.path) <+: position w.path :=
      hsep (v.name, i) (mem_of_lookup (hreg.live i v hv (by omega))) (w.name, j)
        (mem_of_lookup (hreg.live j w hw huse)) hne v hv w hw
    have hnot' : ¬ position v.path <+: position w.path := by
      intro hpre
      rw [hreg.path v (mem_of_getElem? hv), position_dataPath,
        ← hreg.path v (mem_of_getElem? hv)] at hpre
      exact hnot ((prefix_append _ _).trans hpre)
    rw [hpath] at h ⊢
    rwa [Host.removeAll_nodes_of_not_prefix hnot, Host.removeAll_nodes_of_not_prefix hnot']

/-- A use that is given back with its mount point. -/
theorem remove_counted (hm : m.volume = some i) (hreg : Registry r) (hsep : Separate r) (hcov : Covers r (m :: ms)) :
    Registry (remove i r).2 ∧ Separate (remove i r).2 ∧ Covers (remove i r).2 ms ∧
      KeptAll ms r (remove i r).2 := by
  have hcount : Registry (r.count i (-1)) := hreg.count fun v hv hle => hreg.live i v hv (by omega)
  rcases remove_cases i r with heq | heq | ⟨v, hv, hlast, heq⟩
  · rw [heq]
    exact ⟨hreg, hsep, hcov.subperm (sublist_cons_self m ms).subperm, fun _ _ => ⟨rfl, id⟩⟩
  · rw [heq]
    exact ⟨hcount, hsep.of_subset (fun _ he => he) fun j => count_path r i j (-1), hcov.release hm,
      fun m' _ => ⟨path_count m' r i (-1), id⟩⟩
  · rw [heq]
    have hrel := hcov.release hm
    refine ⟨⟨hcount.path, ?_, ?_⟩, ?_, ⟨hrel.counted, hrel.made, hrel.sourceless⟩, ?_⟩
    · intro name j hj
      rw [lookup_filter fun n => n ≠ v.name] at hj
      split at hj
      · exact hcount.named name j hj
      · cases hj
    · intro j w hw huse
      rw [lookup_filter fun n => n ≠ v.name]
      have hlive : r.volumes.lookup w.name = some j := hcount.live j w hw huse
      -- the removed volume was the one in the map under its name, and has no use left
      have hname : w.name ≠ v.name := by
        intro hname
        rw [hname, hreg.live i v hv (by omega)] at hlive
        cases hlive
        obtain ⟨v', hv', -, -, huse'⟩ := getElem?_of_count hw
        rw [hv] at hv'
        cases hv'
        rw [if_pos rfl] at huse'
        omega
      rw [if_pos (decide_eq_true hname)]
      exact hlive
    · apply hsep.of_subset
      · intro e he
        exact mem_of_mem_filter he
      · exact fun j => count_path r i j (-1)
    · intro m' hm'
      exact ⟨path_count m' r i (-1), remove_kept hreg hsep hcov hm hv hlast hm'⟩

/-- The removal of a list of mount points leaves what the others refer to. -/
theorem removeMountPoints_counted {own others : List MountPoint} (hreg : Registry r) (hsep : Separate r)
    (hcov : Covers r (own ++ others)) :
    Registry (removeMountPoints own r).2 ∧ Covers (removeMountPoints own r).2 others ∧
      KeptAll others r (removeMountPoints own r).2 := by
  induction own generalizing r with
  | nil => exact ⟨hreg, hcov, fun _ _ => ⟨rfl, id⟩⟩
  | cons m own ih =>
    rw [removeMountPoints]
    cases hm : m.volume with
    | none => exact ih hreg hsep (hcov.subperm (sublist_cons_self m _).subperm)
    | some i =>
      obtain ⟨hreg', hsep', hcov', hkept⟩ := remove_counted hm hreg hsep hcov
      have hothers : KeptAll others r (remove i r).2 := fun m' hm' => hkept m' (mem_append_right own hm')
      rcases hrun : removeVolume i r with ⟨e | u, r'⟩
      · have hsnd : (remove i r).2 = r' := congrArg Prod.snd hrun
        rw [hsnd] at hreg' hcov' hothers
        simp only [bind_run_error hrun]
        exact ⟨hreg', hcov'.subperm (sublist_append_right own others).subperm, hothers⟩
      · have hsnd : (remove i r).2 = r' := congrArg Prod.snd hrun
        rw [hsnd] at hreg' hsep' hcov' hothers
        simp only [bind_run_ok hrun]
        obtain ⟨hreg'', hcov'', hkept''⟩ := ih hreg' hsep' hcov'
        refine ⟨hreg'', hcov'', fun m' hm' => ?_⟩
        obtain ⟨hpath, hnodes⟩ := hothers m' hm'
        obtain ⟨hpath', hnodes'⟩ := hkept'' m' hm'
        rw [hpath] at hpath' hnodes'
        exact ⟨hpath', fun h => hnodes' (hnodes h)⟩

end Remove

/-! ## Whole runs -/

/-- The counts of a daemon cover the mount points of its containers. -/
def Daemon.Counted (d : Daemon) : Prop := Registry d.root ∧ Covers d.root (allPoints d.containers)

variable {entries : List { n // Proper n }} {id scope : Str} {rooted : isAbs scope = true} {host : Host} {r : Root}
  {d d' : Daemon}

theorem add_counted {m : Proc Root MountErr (List MountPoint)}
    (hm : Triple (Counted (allPoints d.containers) []) m (Counted (allPoints d.containers))
      fun _ => True) (h : d.Counted) (hadd : d.add id m = some d') : d'.Counted := by
  unfold Daemon.add at hadd
  split at hadd
  · cases hadd
  split at hadd
  next points root hrun =>
    cases hadd
    exact (hm d.root h).1 points root hrun
  · cases hadd

/-- A container apart from the others. -/
theorem allPoints_split {c : Container} (h : d.containers.find? (fun c => c.id = id) = some c) :
    (c.mountPoints ++ allPoints (d.containers.filter fun c' => c'.id ≠ id)).Subperm (allPoints d.containers) := by
  have hid : c.id = id := by simpa using find?_some h
  have hsub : (c :: d.containers.filter fun c' => c'.id ≠ id).Subperm d.containers := by
    apply cons_subperm_of_not_mem_of_mem
    · simp [hid]
    · exact mem_of_find?_eq_some h
    · exact filter_sublist.subperm
  obtain ⟨l, hperm, hl⟩ := hsub
  have hflat := hperm.flatMap fun c _ => List.Perm.refl c.mountPoints
  exact hflat.symm.subperm.trans (hl.flatMap _).subperm

theorem next_remove {volumes : Bool} (h : d.Counted)
    (hsep : volumes → Separate d.root) (hnext : d.next (.remove id volumes) = some d') :
    d'.Counted ∧ KeptAll (allPoints d'.containers) d.root d'.root := by
  simp only [Daemon.next] at hnext
  split at hnext
  · cases hnext
  next c hc =>
    have hcov := h.2.subperm (allPoints_split hc)
    split at hnext
    next htrue =>
      cases hnext
      obtain ⟨hreg', hcov', hkept⟩ := removeMountPoints_counted h.1 (hsep htrue) hcov
      exact ⟨⟨hreg', hcov'⟩, hkept⟩
    · cases hnext
      exact ⟨⟨h.1, hcov.subperm (sublist_append_right _ _).subperm⟩, fun _ _ => ⟨rfl, fun h => h⟩⟩

theorem next_counted (d : Daemon) (e : Event) (d' : Daemon) (h : d.Counted) (hgood : Sourceless d e)
    (hnext : d.next e = some d') : d'.Counted := by
  cases e with
  | load id points =>
    simp only [Daemon.next] at hnext
    split at hnext
    · cases hnext
    · exact add_counted (prepareMountPoints_counted points) h hnext
  | create id volumesFrom binds volumes =>
    exact add_counted (createMountPoints_counted hgood binds volumes) h hnext
  | remove id volumes => exact (next_remove h hgood hnext).1
  | reorder id points =>
    simp only [Daemon.next] at hnext
    split at hnext
    next hperm =>
      cases hnext
      refine ⟨h.1, h.2.subperm (List.Perm.subperm ?_)⟩
      show ((d.containers.map _).flatMap Container.mountPoints).Perm (d.containers.flatMap _)
      rw [flatMap_map]
      apply List.Perm.flatMap_left
      intro c hc
      split
      next hid => exact (hperm c hc hid).symm
      · exact List.Perm.refl _
    · cases hnext

section

variable (h : new scope rooted entries host = some r)
include h

/-- The driver starts without uses. -/
theorem count_new
    (hv : r.objects[i]? = some v) : 0 ≤ v.usedCount ∧ v.usedCount < 1 := by
  unfold new at h
  split at h
  · cases h
  · cases h
    simp only [getElem?_map, map_eq_some_iff] at hv
    obtain ⟨n, -, rfl⟩ := hv
    exact ⟨Int.le_refl 0, Int.one_pos⟩

theorem registry_new : Registry r := by
  refine ⟨?_, ?_, fun i v hv hle => ?_⟩
  · unfold new at h
    split at h
    · cases h
    · cases h
      intro v hv
      obtain ⟨n, -, rfl⟩ := mem_map.mp hv
      rfl
  · unfold new at h
    split at h
    · cases h
    · cases h
      intro name i hi
      obtain ⟨e, he, heq⟩ := mem_map.mp (mem_of_lookup hi)
      cases heq
      have hget := mk_mem_zipIdx_iff_getElem?.mp he
      refine ⟨_, (getElem?_map ..).trans (congrArg _ hget), rfl⟩
  · have := count_new h hv
    omega

end

/-- As long as volumes are taken only from containers whose mount points have no source, and removed when
they are separate, nothing that a remaining container mounts is removed. -/
theorem mounted_kept (scope : Str) (rooted : isAbs scope = true) (entries : List { n // Proper n })
    (host : Host) (r : Root) (h : new scope rooted entries host = some r) (es : List Event)
    (hgood : Along Daemon.next Sourceless ⟨r, []⟩ es) :
    Along Daemon.next Kept ⟨r, []⟩ es := by
  apply along_of_inv (I := Daemon.Counted) next_counted _ _ hgood
  · intro d e d' hd he hnext
    cases e with
    | remove id volumes =>
      intro d'' hd'' m hm
      exact ((next_remove hd he hd'').2 m hm).2
    | _ => trivial
  · exact ⟨registry_new h, ⟨fun i v hv => (count_new h hv).1, nofun, nofun⟩⟩

theorem mounted_kept_imageVolume :
    ∃ r, new "/d".toList rfl [] (chain []) = some r ∧
      Along Daemon.next Kept ⟨r, []⟩
        [.create "c1".toList [] [] [("v".toList, "/x".toList)],
          .create "c2".toList [("c1".toList, true)] [] [], .remove "c1".toList true] := by
  refine ⟨_, rfl, ?_⟩
  apply mounted_kept "/d".toList rfl [] (chain []) _ rfl
  decide +kernel

/-- The container `c1` mounts the volume `v` by name, and `c2` takes it from `c1`. When `c1` is removed with
its volumes, the data goes that `c2` mounts. -/
theorem remove_mounted :
    ∃ r, new "/d".toList rfl [] (chain []) = some r ∧
      ¬ Along Daemon.next Kept ⟨r, []⟩
        [.create "c1".toList [] [⟨"v".toList, "/x".toList, true⟩] [],
          .create "c2".toList [("c1".toList, true)] [] [], .remove "c1".toList true] := by
  refine ⟨_, rfl, ?_⟩
  decide +kernel

end DockerEngine.Volumes
