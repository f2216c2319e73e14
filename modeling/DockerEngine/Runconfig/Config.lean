import DockerEngine.Lib.Filepath
import DockerEngine.Lib.GoMap

/-!
# Container configurations and their comparison

`Config` of `runconfig/config.go` with the fields that `Compare` and the builder look at, and `Compare`
of `runconfig/compare.go`, by which the build cache decides that an image was made from a configuration.

Compare decides the equality of two maps by their sizes and one loop. For the sets of ports and volumes
that is enough. For the labels it is not: a label that is missing reads as one with an empty text.
`compare_iff` says what Compare decides, `compare_agrees_iff` for which configurations that is the
agreement of all fields.
-/

namespace DockerEngine.Runconfig

open Filepath List GoMap

/-- `Config`. `Cmd` and `Entrypoint` are pointers, nil in a configuration that has none. -/
structure Config where
  user : Str
  attachStdout : Bool
  attachStderr : Bool
  exposedPorts : GoMap Str Unit
  tty : Bool
  openStdin : Bool
  env : List Str
  cmd : Option (List Str)
  image : Str
  volumes : GoMap Str Unit
  workingDir : Str
  entrypoint : Option (List Str)
  onBuild : List Str
  labels : GoMap Str Str

/-- `&runconfig.Config{}`. -/
def Config.zero : Config where
  user := []
  attachStdout := false
  attachStderr := false
  exposedPorts := .empty
  tty := false
  openStdin := false
  env := []
  cmd := none
  image := []
  volumes := .empty
  workingDir := []
  entrypoint := none
  onBuild := []
  labels := .empty

/-- `Slice` of a command or an entrypoint. -/
def slice (p : Option (List Str)) : List Str := p.getD []

/-- A loop over the indices of one list that compares it with another. -/
def sameElements (a b : List Str) : Bool := (range a.length).all fun i => a[i]? == b[i]?

/-- The loop over the labels: `v != b.Labels[k]`, where a missing label is the empty text. -/
def sameLabels (a b : GoMap Str Str) : Bool := a.entries.all fun e => e.2 == (b.get e.1).getD []

/-- The loops over ports and volumes. -/
def sameKeys (a b : GoMap Str Unit) : Bool := a.entries.all fun e => (b.get e.1).isSome

/-- `Compare`. -/
def compare : Option Config → Option Config → Bool
  | some a, some b =>
    if a.openStdin || b.openStdin then false
    else if a.attachStdout != b.attachStdout || a.attachStderr != b.attachStderr || a.user != b.user ||
        a.openStdin != b.openStdin || a.tty != b.tty then false
    else if (slice a.cmd).length != (slice b.cmd).length || a.env.length != b.env.length ||
        a.labels.size != b.labels.size || a.exposedPorts.size != b.exposedPorts.size ||
        (slice a.entrypoint).length != (slice b.entrypoint).length ||
        a.volumes.size != b.volumes.size then false
    else sameElements (slice a.cmd) (slice b.cmd) && sameElements a.env b.env &&
      sameLabels a.labels b.labels && sameKeys a.exposedPorts b.exposedPorts &&
      sameElements (slice a.entrypoint) (slice b.entrypoint) && sameKeys a.volumes b.volumes
  | _, _ => false

/-! ## What the loops decide -/

theorem sameElements_iff {a b : List Str} (h : a.length = b.length) : sameElements a b ↔ a = b := by
  rw [sameElements, all_eq_true]
  constructor
  · intro hall
    refine ext_getElem? fun i => ?_
    by_cases hi : i < a.length
    · simpa using hall i (mem_range.mpr hi)
    · rw [getElem?_eq_none (by omega), getElem?_eq_none (by omega)]
  · rintro rfl
    simp

theorem sameKeys_iff {a b : GoMap Str Unit} (h : a.size = b.size) : sameKeys a b ↔ ∀ k, k ∈ a.keys ↔ k ∈ b.keys := by
  have hall : sameKeys a b ↔ ∀ k ∈ a.keys, k ∈ b.keys := by
    simp only [sameKeys, all_eq_true, GoMap.keys, forall_mem_map, Option.isSome_iff_exists]
    exact forall₂_congr fun e _ => GoMap.mem_keys.symm
  rw [hall]
  exact ⟨keys_of_size h, fun hk k => (hk k).mp⟩

variable {a b : GoMap Str Str}

theorem sameLabels_iff : sameLabels a b ↔ ∀ k v, a.get k = some v → v = (b.get k).getD [] := by
  simp only [sameLabels, all_eq_true, beq_iff_eq]
  exact ⟨fun h k v hk => h (k, v) (mem_iff_get.mpr hk), fun h e he => h e.1 e.2 (mem_iff_get.mp he)⟩

/-! ## Agreement -/

/-- The fields besides the labels are equal: flags, user, the three lists, and the two sets. -/
structure AgreeBesides (a b : Config) : Prop where
  attachStdout : a.attachStdout = b.attachStdout
  attachStderr : a.attachStderr = b.attachStderr
  user : a.user = b.user
  tty : a.tty = b.tty
  cmd : slice a.cmd = slice b.cmd
  env : a.env = b.env
  entrypoint : slice a.entrypoint = slice b.entrypoint
  exposedPorts : ∀ k, k ∈ a.exposedPorts.keys ↔ k ∈ b.exposedPorts.keys
  volumes : ∀ k, k ∈ a.volumes.keys ↔ k ∈ b.volumes.keys

/-- Two configurations that the cache may take for each other. -/
def Agree (a b : Config) : Prop := AgreeBesides a b ∧ a.labels.Same b.labels

/-- **What Compare decides.** -/
theorem compare_iff {a b : Config} (ha : a.openStdin = false) (hb : b.openStdin = false) :
    compare (some a) (some b) ↔ AgreeBesides a b ∧ a.labels.size = b.labels.size ∧
      ∀ k v, a.labels.get k = some v → v = (b.labels.get k).getD [] := by
  simp only [compare, ha, hb, Bool.or_self, Bool.false_eq_true, if_false, bne_self_eq_false, Bool.or_false]
  constructor
  · intro h
    split at h
    · cases h
    next hflags =>
      split at h
      · cases h
      next hsizes =>
        simp only [Bool.or_eq_true, bne_iff_ne, not_or, not_not] at hflags hsizes
        obtain ⟨⟨⟨hout, herr⟩, huser⟩, htty⟩ := hflags
        obtain ⟨⟨⟨⟨⟨hcmd, henv⟩, hlabels⟩, hports⟩, hentry⟩, hvolumes⟩ := hsizes
        simp only [Bool.and_eq_true, sameElements_iff hcmd, sameElements_iff henv,
          sameElements_iff hentry, sameKeys_iff hports, sameKeys_iff hvolumes, sameLabels_iff] at h
        obtain ⟨⟨⟨⟨⟨hcmd, henv⟩, hl⟩, hports⟩, hentry⟩, hvolumes⟩ := h
        exact ⟨⟨hout, herr, huser, htty, hcmd, henv, hentry, hports, hvolumes⟩, hlabels, hl⟩
  · rintro ⟨⟨hout, herr, huser, htty, hcmd, henv, hentry, hports, hvolumes⟩, hlabels, hl⟩
    have hports' := size_of_keys hports
    have hvolumes' := size_of_keys hvolumes
    simp only [hout, herr, huser, htty, hcmd, henv, hentry, hlabels, hports', hvolumes',
      bne_self_eq_false, Bool.or_self, Bool.false_eq_true, if_false, Bool.and_eq_true,
      sameElements_iff, sameKeys_iff hports', sameKeys_iff hvolumes', sameLabels_iff]
    exact ⟨⟨⟨⟨⟨trivial, trivial⟩, hl⟩, hports⟩, trivial⟩, hvolumes⟩

/-- The loop over the labels passes over a label that the other map lacks, if its text is empty; apart
from that it finds the labels of one map in the other. -/
theorem label_loop :
    (∀ k v, a.get k = some v → v = (b.get k).getD []) ↔
      (∀ k v w, a.get k = some v → b.get k = some w → v = w) ∧
      ∀ k v, a.get k = some v → v ≠ [] → k ∈ b.keys := by
  constructor
  · intro h
    refine ⟨fun k v w hv hw => ?_, fun k v hv hne => ?_⟩
    · have := h k v hv
      rwa [hw] at this
    · cases hw : b.get k with
      | some w => exact mem_keys.mpr ⟨w, hw⟩
      | none => exact absurd ((h k v hv).trans (by rw [hw]; rfl)) hne
  · rintro ⟨hcommon, htexts⟩ k v hv
    cases hw : b.get k with
    | some w => exact hcommon k v w hv hw
    | none =>
      by_contra hne
      obtain ⟨w, hw'⟩ := mem_keys.mp (htexts k v hv hne)
      cases hw.symm.trans hw'

theorem labels_same_iff : a.Same b ↔ a.size = b.size ∧
    (∀ k v w, a.get k = some v → b.get k = some w → v = w) ∧ ∀ k ∈ a.keys, k ∈ b.keys := by
  constructor
  · intro h
    refine ⟨size_of_keys h.keys, fun k v w hv hw => ?_, fun k => (h.keys k).mp⟩
    rw [h k, hw] at hv
    exact (Option.some.inj hv).symm
  · rintro ⟨hsize, hcommon, hsub⟩ k
    refine Option.ext fun w => ⟨fun hv => ?_, fun hw => ?_⟩
    · obtain ⟨w', hw⟩ := mem_keys.mp (hsub k (mem_keys.mpr ⟨w, hv⟩))
      rwa [hcommon k w w' hv hw]
    · obtain ⟨v, hv⟩ := mem_keys.mp ((keys_of_size hsize hsub k).mpr (mem_keys.mpr ⟨w, hw⟩))
      rwa [← hcommon k v w hv hw]

/-- No label with an empty text is lost: if the other fields, the number of labels and the texts of
common labels are equal and `b` has every label of `a` that has a text, then it has those without one
as well. -/
def EmptyLabelsKept (a b : Config) : Prop :=
  AgreeBesides a b → a.labels.size = b.labels.size →
    (∀ k v w, a.labels.get k = some v → b.labels.get k = some w → v = w) →
    (∀ k v, a.labels.get k = some v → v ≠ [] → k ∈ b.labels.keys) →
    ∀ k, a.labels.get k = some [] → k ∈ b.labels.keys

/-- **Compare against the agreement of all fields.** -/
theorem compare_agrees_iff {a b : Config} (ha : a.openStdin = false) (hb : b.openStdin = false) :
    (compare (some a) (some b) = true ↔ Agree a b) ↔ EmptyLabelsKept a b := by
  rw [compare_iff ha hb, label_loop, Agree, labels_same_iff]
  constructor
  · intro h hbesides hsize hcommon htexts k hk
    have hagree := h.mp ⟨hbesides, hsize, hcommon, htexts⟩
    exact hagree.2.2.2 k (mem_keys.mpr ⟨_, hk⟩)
  · intro hkept
    constructor
    · rintro ⟨hbesides, hsize, hcommon, htexts⟩
      refine ⟨hbesides, hsize, hcommon, fun k hk => ?_⟩
      obtain ⟨v, hv⟩ := mem_keys.mp hk
      by_cases hempty : v = []
      · exact hkept hbesides hsize hcommon htexts k (hempty ▸ hv)
      · exact htexts k v hv hempty
    · rintro ⟨hbesides, hsize, hcommon, hsub⟩
      exact ⟨hbesides, hsize, hcommon, fun k v hv _ => hsub k (mem_keys.mpr ⟨v, hv⟩)⟩

/-- A configuration with one label. -/
def labelled (k v : Str) : Config := { Config.zero with labels := ⟨[(k, v)], nodup_singleton k⟩ }

theorem compare_agrees_labelled :
    compare (some (labelled ['a'] ['x'])) (some (labelled ['a'] ['x'])) = true ↔
      Agree (labelled ['a'] ['x']) (labelled ['a'] ['x']) := by
  exact (compare_agrees_iff rfl rfl).mpr fun _ _ _ _ k hk => mem_keys.mpr ⟨_, hk⟩

/-- A label without a text is taken for any other one, in one direction only. -/
theorem compare_lost_label :
    compare (some (labelled ['a'] [])) (some (labelled ['b'] ['x'])) = true ∧
      compare (some (labelled ['b'] ['x'])) (some (labelled ['a'] [])) = false ∧
      ¬ Agree (labelled ['a'] []) (labelled ['b'] ['x']) := by
  refine ⟨by decide, by decide, fun h => ?_⟩
  have := h.2 ['a']
  revert this
  decide

end DockerEngine.Runconfig
