import DockerEngine.Lib.Filepath
import DockerEngine.Lib.Outcome

/-!
# The values of `-v`

A value of `-v` is read on both sides of the API. The client checks it (`ValidatePath`): it takes the value
apart at the colons, decides which part is the path in the container and which the mode, and puts a value together
again. Its `Parse` moves the values with a colon to the binds of the host configuration; the others stay and become
the volumes of the container's configuration. The daemon takes the binds apart once more (`parseBindMount`).

The two sides do not agree on values of two parts. The client takes `path:mode` for a path and a mode if the second
part is a mode, the daemon takes any value of two parts for a source and a path
(`parseBindMount_agrees_iff`).

`Parse` deletes one element for each distinct bind from a list that may have it twice, and compares with `/` what
stands between the first two colons (`parseVolumes_partition_iff`).
-/

namespace DockerEngine.Opts

open Filepath List Outcome

/-! ## Modes -/

/-- `rwModes`. -/
def rwModes : List Str :=
  ["rw".toList, "rw,Z".toList, "rw,z".toList, "z,rw".toList, "Z,rw".toList, "Z".toList, "z".toList]

/-- `roModes`. -/
def roModes : List Str := ["ro".toList, "ro,Z".toList, "ro,z".toList, "z,ro".toList, "Z,ro".toList]

/-- `ValidateMountMode`: whether a mode is valid, and whether it is a read-write mode. -/
def validateMountMode (mode : Str) : Bool × Bool :=
  (decide (mode ∈ roModes) || decide (mode ∈ rwModes), decide (mode ∈ rwModes))

/-- A valid mode is a read-only mode or a read-write mode, and not both. -/
theorem readOnly_iff {mode : Str} (h : (validateMountMode mode).1) :
    (validateMountMode mode).2 = false ↔ mode ∈ roModes := by
  have hapart : ∀ m ∈ roModes, m ∉ rwModes := by decide
  simp only [validateMountMode, Bool.or_eq_true, decide_eq_true_eq, decide_eq_false_iff_not] at h ⊢
  exact ⟨h.resolve_right, hapart mode⟩

/-! ## The client's check -/

/-- The errors of `validatePath`. -/
inductive PathErr where
  | badFormat (val : Str)
  | badMode (mode : Str)
  | notAbsolute (containerPath : Str)
  deriving DecidableEq, Repr

/-- The text of an error. -/
def PathErr.text : PathErr → Str
  | .badFormat val => "bad format for volumes: ".toList ++ val
  | .badMode mode => "bad mount mode specified : ".toList ++ mode
  | .notAbsolute p => p ++ " is not an absolute path".toList

/-- The variables of `validatePath` at its end. -/
structure Checked where
  containerPath : Str
  mode : Str
  val : Str
  deriving DecidableEq, Repr

/-- The last test. -/
def Checked.absolute (c : Checked) : Except PathErr Checked :=
  if isAbs c.containerPath then .ok c else .error (.notAbsolute c.containerPath)

/-- `validatePath`, with the variables that it returns and those that it does not. -/
def checkPath (val : Str) (validate : Bool) : Except PathErr Checked :=
  if 2 < val.count ':' then .error (.badFormat val)
  else
    -- there are at most three parts, so that `SplitN` makes all of them
    match val.splitOn ':' with
    | [path] => if path = [] then .error (.badFormat val) else Checked.absolute ⟨path, [], clean path⟩
    | [one, two] =>
      if one = [] then .error (.badFormat val)
      else if validate && (validateMountMode two).1 then Checked.absolute ⟨one, two, clean one ++ ':' :: two⟩
      else Checked.absolute ⟨two, [], one ++ ':' :: clean two⟩
    | [one, two, three] =>
      if one = [] then .error (.badFormat val)
      else if validate && !(validateMountMode three).1 then .error (.badMode three)
      else Checked.absolute ⟨two, three, one ++ ':' :: (two ++ ':' :: three)⟩
    | _ => .error (.badFormat val)

/-- `ValidatePath`. -/
def validatePath (val : Str) : Except PathErr Str := (checkPath val true).map Checked.val

/-- `ValidateDevice`. -/
def validateDevice (val : Str) : Except PathErr Str := (checkPath val false).map Checked.val

/-- The forms of a value, as `ValidatePath` reads it. -/
inductive Form (val : Str) (c : Checked) : Prop where
  | volume (parts : val.splitOn ':' = [c.containerPath]) (mode : c.mode = [])
      (valid : c.val = clean c.containerPath)
  | pathMode (parts : val.splitOn ':' = [c.containerPath, c.mode])
      (known : (validateMountMode c.mode).1 = true) (valid : c.val = clean c.containerPath ++ ':' :: c.mode)
  | bind (src : Str) (parts : val.splitOn ':' = [src, c.containerPath]) (mode : c.mode = [])
      (unknown : (validateMountMode c.containerPath).1 = false)
      (valid : c.val = src ++ ':' :: clean c.containerPath)
  | bindMode (src : Str) (parts : val.splitOn ':' = [src, c.containerPath, c.mode])
      (known : (validateMountMode c.mode).1 = true)
      (valid : c.val = src ++ ':' :: (c.containerPath ++ ':' :: c.mode))

variable {val p bind a b : Str} {c : Checked}

theorem absolute_ok {c' : Checked} (h : c.absolute = .ok c') : c' = c ∧ isAbs c.containerPath := by
  rw [Checked.absolute] at h
  split at h
  next habs => exact ⟨(Except.ok.inj h).symm, habs⟩
  next => cases h

/-- What is accepted has one of the forms, and its path is absolute. -/
theorem checkPath_ok (h : checkPath val true = .ok c) : isAbs c.containerPath ∧ Form val c := by
  rw [checkPath] at h
  split at h
  next => cases h
  split at h
  next path hparts =>
    split at h
    next => cases h
    obtain ⟨rfl, habs⟩ := absolute_ok h
    exact ⟨habs, .volume hparts rfl rfl⟩
  next one two hparts =>
    split at h
    next => cases h
    split at h
    next hmode =>
      obtain ⟨rfl, habs⟩ := absolute_ok h
      exact ⟨habs, .pathMode hparts (by simpa using hmode) rfl⟩
    next hmode =>
      obtain ⟨rfl, habs⟩ := absolute_ok h
      exact ⟨habs, .bind one hparts rfl (by simpa using hmode) rfl⟩
  next one two three hparts =>
    split at h
    next => cases h
    split at h
    next => cases h
    next hmode =>
    obtain ⟨rfl, habs⟩ := absolute_ok h
    exact ⟨habs, .bindMode one hparts (by simpa using hmode) rfl⟩
  next => cases h

/-! ## The parts of a validated value -/

theorem splitOn_two (ha : ':' ∉ a) (hb : ':' ∉ b) : (a ++ ':' :: b).splitOn ':' = [a, b] := by
  rw [Words.splitOn_cons ha, splitOn_eq_singleton hb]

theorem splitOn_three {c : Str} (ha : ':' ∉ a) (hb : ':' ∉ b) (hc : ':' ∉ c) :
    (a ++ ':' :: (b ++ ':' :: c)).splitOn ':' = [a, b, c] := by
  rw [Words.splitOn_cons ha, splitOn_two hb hc]

/-- A value of one part has no colon. -/
theorem splitOn_one {path : Str} (h : val.splitOn ':' = [path]) : val = path := by
  simpa using (Words.splitOn_eq_iff.mp h).2.2

/-- No part has a colon. -/
theorem colon_not_mem {parts : List Str} (h : val.splitOn ':' = parts) (hp : p ∈ parts) : ':' ∉ p :=
  Words.not_mem_of_mem_splitOn (h ▸ hp)

theorem colon_not_mem_clean {parts : List Str} (habs : isAbs p) (h : val.splitOn ':' = parts) (hp : p ∈ parts) :
    ':' ∉ clean p :=
  fun hmem => (mem_clean habs hmem).elim (by decide) (colon_not_mem h hp)

/-! ## The daemon's reading -/

/-- What `parseBindMount` makes of a bind. -/
structure BindMount where
  name : Str
  destination : Str
  driver : Str
  rw : Bool
  source : Str
  relabel : Str
  deriving DecidableEq, Repr

/-- The errors of `parseBindMount`. -/
inductive BindErr where
  | invalidMode (mode : Str)
  | invalidSpec (spec : Str)
  deriving DecidableEq, Repr

/-- The text of an error. -/
def BindErr.text : BindErr → Str
  | .invalidMode mode => "invalid mode for volumes-from: ".toList ++ mode
  | .invalidSpec spec => "Invalid volume specification: ".toList ++ spec

/-- `parseVolumeSource`: a name and a source, one of which is empty. -/
def parseVolumeSource (spec : Str) : Str × Str := if isAbs spec then ([], spec) else (spec, [])

/-- The end of `parseBindMount`. -/
def bindMount (volumeDriver src dst : Str) (rw : Bool) (relabel : Str) : BindMount :=
  let name := (parseVolumeSource src).1
  let source := (parseVolumeSource src).2
  if source = [] then
    ⟨name, clean dst, if volumeDriver = [] then "local".toList else volumeDriver, rw, [], relabel⟩
  else ⟨name, clean dst, [], rw, clean source, relabel⟩

/-- `parseBindMount`. -/
def parseBindMount (spec volumeDriver : Str) : Except BindErr BindMount :=
  match spec.splitOn ':' with
  | [src, dst] => .ok (bindMount volumeDriver src dst true [])
  | [src, dst, mode] =>
    if (validateMountMode mode).1 then
      .ok (bindMount volumeDriver src dst (validateMountMode mode).2 mode)
    else .error (.invalidMode mode)
  | _ => .error (.invalidSpec spec)

theorem bindMount_destination (volumeDriver src dst : Str) (rw : Bool) (relabel : Str) :
    (bindMount volumeDriver src dst rw relabel).destination = clean dst := by
  rw [bindMount]
  split <;> rfl

theorem bindMount_rw (volumeDriver src dst : Str) (rw : Bool) (relabel : Str) :
    (bindMount volumeDriver src dst rw relabel).rw = rw := by
  rw [bindMount]
  split <;> rfl

/-- The daemon mounts at the path that the client has checked, and read-only exactly if the client has seen a
read-only mode. -/
def Agrees (c : Checked) (m : BindMount) : Prop :=
  m.destination = clean c.containerPath ∧ (m.rw = false ↔ c.mode ∈ roModes)

/-- A value of two parts, the second of which is a mode. -/
def isPathMode (val : Str) : Bool :=
  match val.splitOn ':' with
  | [_, mode] => (validateMountMode mode).1
  | _ => false

/-- **Client and daemon read a value the same way** exactly if it is no path with a mode. -/
theorem parseBindMount_agrees_iff (val : Str) (c : Checked) (volumeDriver : Str) (m : BindMount)
    (hcheck : checkPath val true = .ok c) (hcolon : ':' ∈ val)
    (hparse : parseBindMount c.val volumeDriver = .ok m) : Agrees c m ↔ isPathMode val = false := by
  obtain ⟨habs, hform⟩ := checkPath_ok hcheck
  have hnomode : ([] : Str) ∉ roModes := by decide
  cases hform with
  | volume parts mode valid =>
    rw [splitOn_one parts] at hcolon
    exact absurd hcolon (colon_not_mem parts (by simp))
  | pathMode parts known valid =>
    refine iff_of_false (fun hagrees => ?_) (by simp [isPathMode, parts, known])
    rw [parseBindMount, valid, splitOn_two (colon_not_mem_clean habs parts (by simp))
      (colon_not_mem parts (by simp))] at hparse
    cases hparse
    -- the mode is taken for the path, and is not absolute
    have hdst := hagrees.1
    rw [bindMount_destination] at hdst
    have hrel : isAbs (clean c.mode) = false := by
      have hmodes : ∀ mode ∈ roModes ++ rwModes, isAbs (clean mode) = false := by decide
      simp only [validateMountMode, Bool.or_eq_true, decide_eq_true_eq] at known
      exact hmodes c.mode (mem_append.mpr known)
    rw [hdst, isAbs_clean habs] at hrel
    cases hrel
  | bind src parts mode unknown valid =>
    rw [parseBindMount, valid, splitOn_two (colon_not_mem parts (by simp))
      (colon_not_mem_clean habs parts (by simp))] at hparse
    cases hparse
    refine iff_of_true ⟨?_, ?_⟩ (by simp [isPathMode, parts, unknown])
    · rw [bindMount_destination, clean_rooted habs, clean_absPath (walk_names (by simp) fun _ => mem_comps)]
    · rw [bindMount_rw, mode]
      exact iff_of_false (by simp) hnomode
  | bindMode src parts known valid =>
    rw [parseBindMount, valid, splitOn_three (colon_not_mem parts (by simp)) (colon_not_mem parts (by simp))
      (colon_not_mem parts (by simp))] at hparse
    simp only [known, if_true, Except.ok.injEq] at hparse
    subst hparse
    refine iff_of_true ⟨bindMount_destination .., ?_⟩ (by simp [isPathMode, parts])
    rw [bindMount_rw]
    exact readOnly_iff known

/-- A source, a path and a mode are read alike. -/
theorem parseBindMount_agrees_three :
    Agrees ⟨"/data".toList, "ro".toList, "/src:/data:ro".toList⟩
      ⟨[], "/data".toList, [], false, "/src".toList, "ro".toList⟩ :=
  (parseBindMount_agrees_iff "/src:/data:ro".toList ⟨"/data".toList, "ro".toList, "/src:/data:ro".toList⟩ []
    ⟨[], "/data".toList, [], false, "/src".toList, "ro".toList⟩ (by decide +kernel) (by decide)
    (by decide +kernel)).mpr (by decide +kernel)

/-- Of `/data:ro` the client checks the path `/data`, and the daemon mounts `/data` at `ro`, writable. -/
theorem parseBindMount_swapped :
    checkPath "/data:ro".toList true = .ok ⟨"/data".toList, "ro".toList, "/data:ro".toList⟩ ∧
      parseBindMount "/data:ro".toList [] = .ok ⟨[], "ro".toList, [], true, "/data".toList, []⟩ ∧
      ¬ Agrees ⟨"/data".toList, "ro".toList, "/data:ro".toList⟩
        ⟨[], "ro".toList, [], true, "/data".toList, []⟩ := by
  refine ⟨by decide +kernel, by decide +kernel, fun h => ?_⟩
  exact absurd h.1 (by decide +kernel)

/-! ## Volumes and binds -/

/-- The errors of the loop over the values. -/
inductive ParseErr where
  | bindRoot
  | volumeRoot
  deriving DecidableEq, Repr

/-- The text of an error. -/
def ParseErr.text : ParseErr → Str
  | .bindRoot => "Invalid bind mount: destination can't be '/'".toList
  | .volumeRoot => "Invalid volume: path can't be '/'".toList

/-- `flVolumes` after `Set` was called with each value. -/
def setAll (vals : List Str) : Except PathErr (List Str) := vals.mapM validatePath

/-- One round of the loop of `Parse`: the binds so far, and the values of `flVolumes`, of which `Delete` takes the
first that is equal. -/
def bindStep (st : List Str × List Str) (bind : Str) : Except ParseErr (List Str × List Str) :=
  match bind.splitOn ':' with
  | _ :: second :: _ =>
    if second = ['/'] then .error .bindRoot else .ok (st.1 ++ [bind], st.2.erase bind)
  | _ => if bind = ['/'] then .error .volumeRoot else .ok st

/-- `hostConfig.Binds`, and the keys of `config.Volumes`, which are the values that `flVolumes` still has. The loop
is over the keys of a map, in some order. -/
def parseVolumes (order values : List Str) : Except ParseErr (List Str × List Str) :=
  order.foldlM bindStep ([], values)

/-- An order of the keys of `GetMap`. -/
def Enumerates (order values : List Str) : Prop := order.Nodup ∧ ∀ v, v ∈ order ↔ v ∈ values

/-- The values are partitioned into binds and volumes, and none is mounted at the root. -/
structure Partitioned (vals values binds volumes : List Str) : Prop where
  once : binds.Nodup
  binds : ∀ v, v ∈ binds ↔ v ∈ values ∧ ':' ∈ v
  volumes : ∀ v, v ∈ volumes ↔ v ∈ values ∧ ':' ∉ v
  root : ∀ val ∈ vals, ∀ c, checkPath val true = .ok c → clean c.containerPath ≠ ['/']

/-- A value whose path is the root, in a form in which `Parse` does not look at the cleaned path. -/
def rootUnseen (val : Str) : Bool :=
  match val.splitOn ':' with
  | [path, mode] => (validateMountMode mode).1 && decide (clean path = ['/'])
  | [_, path, _] => decide (clean path = ['/'])
  | _ => false

/-- The test that the loop makes of a value. -/
def Permitted (bind : Str) : Prop :=
  (∀ first second rest, bind.splitOn ':' = first :: second :: rest → second ≠ ['/']) ∧
    (':' ∉ bind → bind ≠ ['/'])

/-- What one round does. -/
theorem bindStep_ok {st st' : List Str × List Str} (h : bindStep st bind = .ok st') :
    Permitted bind ∧ st' = if ':' ∈ bind then (st.1 ++ [bind], st.2.erase bind) else st := by
  rw [bindStep] at h
  split at h
  next first second rest hparts =>
    have hcolon : ':' ∈ bind := by
      rw [(Words.splitOn_eq_iff.mp hparts).2.2, intercalate_cons_cons]
      simp
    split at h
    next => cases h
    next hroot =>
    rw [if_pos hcolon]
    refine ⟨⟨fun f s r hparts' => ?_, absurd hcolon⟩, (Except.ok.inj h).symm⟩
    rw [hparts] at hparts'
    cases hparts'
    exact hroot
  next hparts =>
    have hone : ':' ∉ bind := by
      obtain ⟨path, hpath⟩ : ∃ path, bind.splitOn ':' = [path] := by
        match hsplit : bind.splitOn ':' with
        | [] => exact absurd hsplit (splitOn_ne_nil _ _)
        | [path] => exact ⟨path, rfl⟩
        | first :: second :: rest => exact absurd hsplit (hparts first second rest)
      rw [splitOn_one hpath]
      exact colon_not_mem hpath (by simp)
    split at h
    next => cases h
    next hroot =>
    rw [if_neg hone]
    refine ⟨⟨fun f s r hparts' => absurd hparts' (hparts f s r), fun _ => hroot⟩, (Except.ok.inj h).symm⟩

/-- **The whole loop**: it appends the binds of the order, deletes each of them once, and has tested all values. -/
theorem foldlM_bindStep {order : List Str} {st st' : List Str × List Str} (h : order.foldlM bindStep st = .ok st') :
    (∀ bind ∈ order, Permitted bind) ∧ st'.1 = st.1 ++ order.filter (':' ∈ ·) ∧
      ∀ v, st'.2.count v = st.2.count v - (order.filter (':' ∈ ·)).count v := by
  induction order generalizing st with
  | nil =>
    cases h
    simp
  | cons bind order ih =>
    rw [foldlM_cons] at h
    obtain ⟨st₁, hstep, h⟩ := bind_eq_ok.mp h
    obtain ⟨hpermitted, rfl⟩ := bindStep_ok hstep
    obtain ⟨hall, hbinds, hcount⟩ := ih h
    refine ⟨forall_mem_cons.mpr ⟨hpermitted, hall⟩, ?_, fun v => ?_⟩
    · rw [hbinds]
      by_cases hcolon : ':' ∈ bind
      · simp [hcolon]
      · simp [hcolon]
    · rw [hcount]
      by_cases hcolon : ':' ∈ bind
      · simp only [hcolon, if_true, count_erase, filter_cons, decide_true, count_cons]
        omega
      · simp [hcolon]

/-- Each value of the client is accepted, and its validated form is among the values. -/
theorem setAll_mem {vals values : List Str} (h : setAll vals = .ok values) (hval : val ∈ vals) :
    ∃ c, checkPath val true = .ok c ∧ c.val ∈ values := by
  replace h := mapM_eq_ok h
  induction h with
  | nil => cases hval
  | cons hv _ ih =>
    rcases mem_cons.mp hval with rfl | hval
    · obtain ⟨c, hc, rfl⟩ := map_eq_ok hv
      exact ⟨c, hc, mem_cons_self⟩
    · obtain ⟨c, hc, hmem⟩ := ih hval
      exact ⟨c, hc, mem_cons_of_mem _ hmem⟩

/-- Which paths at the root pass the test of the loop. -/
theorem root_iff (hcheck : checkPath val true = .ok c) (hpermitted : Permitted c.val) :
    clean c.containerPath = ['/'] ↔ rootUnseen val := by
  obtain ⟨habs, hform⟩ := checkPath_ok hcheck
  cases hform with
  | volume parts mode valid =>
    rw [valid] at hpermitted
    exact iff_of_false (hpermitted.2 (colon_not_mem_clean habs parts (by simp))) (by simp [rootUnseen, parts])
  | pathMode parts known valid => simp [rootUnseen, parts, known]
  | bind src parts mode unknown valid =>
    have hsrc : ':' ∉ src := colon_not_mem parts (by simp)
    have htwo := splitOn_two hsrc (colon_not_mem_clean habs parts (by simp))
    rw [valid] at hpermitted
    exact iff_of_false (hpermitted.1 src _ [] htwo) (by simp [rootUnseen, parts, unknown])
  | bindMode src parts known valid => simp [rootUnseen, parts]

/-- **The values of `-v` are partitioned** exactly if no bind is given twice, and no path at the root stands where
`Parse` does not see it. -/
theorem parseVolumes_partition_iff {vals values order : List Str} {binds volumes : List Str}
    (hset : setAll vals = .ok values) (horder : Enumerates order values)
    (hparse : parseVolumes order values = .ok (binds, volumes)) :
    Partitioned vals values binds volumes ↔
      (∀ v ∈ values, ':' ∈ v → values.count v = 1) ∧ ∀ val ∈ vals, rootUnseen val = false := by
  obtain ⟨hpermitted, hbinds, hcount⟩ := foldlM_bindStep hparse
  simp only [nil_append] at hbinds
  simp only at hcount
  have hbind : ∀ v, v ∈ order.filter (':' ∈ ·) ↔ v ∈ values ∧ ':' ∈ v := fun v => by
    rw [mem_filter, horder.2, decide_eq_true_eq]
  have hnodup : (order.filter (':' ∈ ·)).Nodup := horder.1.filter _
  have hroot : (∀ val ∈ vals, ∀ c, checkPath val true = .ok c → clean c.containerPath ≠ ['/']) ↔
      ∀ val ∈ vals, rootUnseen val = false := by
    refine forall₂_congr fun val hval => ?_
    obtain ⟨c, hc, hmem⟩ := setAll_mem hset hval
    have hiff := root_iff hc (hpermitted _ ((horder.2 _).mpr hmem))
    rw [← Bool.not_eq_true, ← hiff]
    constructor
    · intro h
      exact h c hc
    intro h c' hc'
    rw [hc] at hc'
    cases hc'
    exact h
  have hvolumes : (∀ v, v ∈ volumes ↔ v ∈ values ∧ ':' ∉ v) ↔ ∀ v ∈ values, ':' ∈ v → values.count v = 1 := by
    constructor
    · intro h v hv hcolon
      have hnot : v ∉ volumes := fun hmem => ((h v).mp hmem).2 hcolon
      have hone := count_eq_one_of_mem hnodup ((hbind v).mpr ⟨hv, hcolon⟩)
      have hv' := hcount v
      rw [count_eq_zero.mpr hnot, hone] at hv'
      have hpos := count_pos_iff.mpr hv
      omega
    · intro h v
      have hv' := hcount v
      rw [← count_pos_iff, hv']
      by_cases hcolon : ':' ∈ v
      · refine iff_of_false ?_ fun hv => hv.2 hcolon
        by_cases hv : v ∈ values
        · rw [h v hv hcolon, count_eq_one_of_mem hnodup ((hbind v).mpr ⟨hv, hcolon⟩)]
          omega
        · rw [count_eq_zero.mpr hv]
          omega
      · rw [count_eq_zero.mpr fun hmem => hcolon ((hbind v).mp hmem).2, Nat.sub_zero, count_pos_iff]
        simp [hcolon]
  rw [← hvolumes, ← hroot]
  constructor
  · intro h
    exact ⟨h.volumes, h.root⟩
  · rintro ⟨hv, hr⟩
    subst hbinds
    exact ⟨hnodup, hbind, hv, hr⟩

/-- One bind and one volume. -/
theorem parseVolumes_partition_two :
    Partitioned ["/a:/b".toList, "/c".toList] ["/a:/b".toList, "/c".toList] ["/a:/b".toList] ["/c".toList] :=
  (parseVolumes_partition_iff (by decide +kernel : setAll ["/a:/b".toList, "/c".toList] = _)
    (⟨by decide, fun _ => Iff.rfl⟩ : Enumerates ["/a:/b".toList, "/c".toList] ["/a:/b".toList, "/c".toList])
    (by decide +kernel)).mpr (by decide +kernel)

/-- A bind that is given twice becomes a volume of the image; and a bind of the root gets through. -/
theorem parseVolumes_leak :
    (setAll ["/a:/b".toList, "/a:/b".toList] = .ok ["/a:/b".toList, "/a:/b".toList] ∧
      parseVolumes ["/a:/b".toList] ["/a:/b".toList, "/a:/b".toList] = .ok (["/a:/b".toList], ["/a:/b".toList]) ∧
      ¬ Partitioned ["/a:/b".toList, "/a:/b".toList] ["/a:/b".toList, "/a:/b".toList] ["/a:/b".toList]
        ["/a:/b".toList]) ∧
    (setAll ["/a:/.:ro".toList] = .ok ["/a:/.:ro".toList] ∧
      parseVolumes ["/a:/.:ro".toList] ["/a:/.:ro".toList] = .ok (["/a:/.:ro".toList], []) ∧
      ¬ Partitioned ["/a:/.:ro".toList] ["/a:/.:ro".toList] ["/a:/.:ro".toList] []) := by
  refine ⟨⟨by decide +kernel, by decide +kernel, fun h => ?_⟩, by decide +kernel, by decide +kernel, fun h => ?_⟩
  · exact absurd ((h.volumes "/a:/b".toList).mp (by simp)).2 (by decide)
  · refine h.root "/a:/.:ro".toList (by simp) ⟨"/.".toList, "ro".toList, "/a:/.:ro".toList⟩ ?_ ?_
    · decide +kernel
    · decide +kernel

end DockerEngine.Opts
