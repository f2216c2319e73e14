import DockerEngine.Lib.Filepath
import DockerEngine.Lib.Sorting

/-!
# The order of mounts

The mounts of a container are made one after the other, so that a mount must come after those that it lies below.
`sortMounts` orders them by the number of parts of the cleaned destination. It does not say how mounts with as many
parts follow each other.

**The law** (`sortMounts_parents_first_iff`): whatever the order of ties is, each mount comes before those below it,
exactly if the root directory is not mounted together with a directory right below it. The cleaned root has two empty
parts, as many as `/a` has (`length_splitOn_clean`), so that it may come last (`sortMounts_root_last`).
-/

namespace DockerEngine.Volumes.Order

open Filepath Sorting List

/-- `execdriver.Mount`. -/
structure Mount where
  source : Str
  destination : Str
  writable : Bool
  deriving DecidableEq, Repr

variable (m m' : Mount)

/-- `mounts.parts`. -/
def parts : Nat := ((clean m.destination).splitOn '/').length

/-- `mounts.Less`. -/
def less : Bool := parts m < parts m'

/-- `sortMounts`: `sort.Sort` gives some list of the same mounts that is ordered by `mounts.Less`. -/
structure SortMounts (ms out : List Mount) : Prop where
  perm : out.Perm ms
  sorted : out.Pairwise fun p q => less q p = false

/-- The names on the way from the root to the cleaned destination. -/
def Mount.names : List Str := comps (clean m.destination)

/-- The destination is a strict ancestor of the other one. -/
def Above : Prop := m.names <+: m'.names ∧ m.names ≠ m'.names

/-- No mount comes behind one that lies below it. -/
def ParentsFirst (out : List Mount) : Prop := out.Pairwise fun p q => ¬ Above q p

/-- The root directory is not mounted together with a directory right below it. -/
def RootApart (ms : List Mount) : Prop := ∀ m ∈ ms, m.names = [] → ∀ m' ∈ ms, m'.names.length ≠ 1

variable {m m' : Mount} {ms out : List Mount}

theorem length_splitOn_clean {s : Str} (h : isAbs s) :
    ((clean s).splitOn '/').length = max 1 (comps (clean s)).length + 1 := by
  have hnames : AllProper (walk [] (comps s)) := walk_names (by simp) fun _ hc => mem_comps hc
  rw [clean_rooted h, comps_absPath_proper hnames, absPath, Words.length_splitOn, count_cons_self]
  generalize walk [] (comps s) = ns at hnames
  -- a slash before each name but the first
  have hcount : (joinSlash ns).count '/' = ns.length - 1 := by
    induction ns with
    | nil => rfl
    | cons n ns ih =>
      obtain ⟨hn, hns⟩ := forall_mem_cons.mp hnames
      have hslash : n.count '/' = 0 := count_eq_zero.mpr hn.2.2.2
      by_cases hnil : ns = []
      · rw [hnil, joinSlash_singleton, hslash]
        rfl
      · have hpos := length_pos_iff.mpr hnil
        rw [joinSlash_cons hnil, count_append, count_cons_self, hslash, ih hns, length_cons]
        omega
  omega

theorem parts_eq (h : isAbs m.destination) : parts m = max 1 m.names.length + 1 := length_splitOn_clean h

theorem Above.length_lt (h : Above m m') : m.names.length < m'.names.length :=
  lt_of_le_of_ne h.1.length_le fun heq => h.2 (h.1.eq_of_length heq)

/-- **Parents first**, in every order of the ties, exactly if the root is mounted apart from the directories right
below it. -/
theorem sortMounts_parents_first_iff (ms : List Mount) (habs : ∀ m ∈ ms, isAbs m.destination) :
    (∀ out, SortMounts ms out → ParentsFirst out) ↔ RootApart ms := by
  constructor
  · intro h m hm hroot m' hm' hone
    -- the ties are ordered with the root last
    let key (m : Mount) : Nat := 2 * parts m + if m.names = [] then 1 else 0
    have hkey : key m' < key m := by
      have hne : m'.names ≠ [] := by
        rintro hnil
        rw [hnil] at hone
        cases hone
      simp only [key, parts_eq (habs m hm), parts_eq (habs m' hm'), hroot, hone, if_neg hne]
      decide
    have habove : Above m m' := by
      refine ⟨hroot ▸ nil_prefix, fun heq => ?_⟩
      rw [← heq, hroot] at hone
      cases hone
    have hperm := List.perm_insertionSort (key · ≤ key ·) ms
    have hsorted := pairwise_insertionSort (key · ≤ key ·) ms
    have hless : ∀ {p q}, key p ≤ key q → less q p = false := by
      intro p q hle
      simp only [key] at hle
      simp only [less, decide_eq_false_iff_not]
      split_ifs at hle <;> omega
    have hfirst := pairwise_iff_getElem.mp (h _ ⟨hperm, hsorted.imp hless⟩)
    obtain ⟨i, hi, rfl⟩ := getElem_of_mem (hperm.mem_iff.mpr hm)
    obtain ⟨j, hj, rfl⟩ := getElem_of_mem (hperm.mem_iff.mpr hm')
    rcases lt_trichotomy i j with hij | rfl | hij
    · exact absurd (pairwise_iff_getElem.mp hsorted i j hi hj hij) (not_le.mpr hkey)
    · exact lt_irrefl _ hkey
    · exact hfirst j i hj hi hij habove
  · intro hapart out hout
    refine hout.sorted.imp_of_mem fun {p q} hp hq hless habove => ?_
    rw [hout.perm.mem_iff] at hp hq
    have hlength := habove.length_lt
    simp only [less, parts_eq (habs p hp), parts_eq (habs q hq), decide_eq_false_iff_not] at hless
    by_cases hroot : q.names = []
    · have hone := hapart q hq hroot p hp
      rw [hroot, length_nil] at hlength hless
      omega
    · have hpos := length_pos_iff.mpr hroot
      omega

theorem sortMounts_parents_first_two :
    ParentsFirst [⟨[], "/a".toList, true⟩, ⟨[], "/a/b/".toList, true⟩] :=
  (sortMounts_parents_first_iff [⟨[], "/a/b/".toList, true⟩, ⟨[], "/a".toList, true⟩] (by decide)).mpr
    (by unfold RootApart; decide) _ ⟨.swap .., by decide⟩

/-- The root directory is mounted over the mount that was made in it. -/
theorem sortMounts_root_last :
    insertionSort less [⟨[], "/a".toList, true⟩, ⟨[], "/".toList, true⟩] =
        [⟨[], "/a".toList, true⟩, ⟨[], "/".toList, true⟩] ∧
      SortMounts [⟨[], "/a".toList, true⟩, ⟨[], "/".toList, true⟩] [⟨[], "/a".toList, true⟩, ⟨[], "/".toList, true⟩] ∧
      Above ⟨[], "/".toList, true⟩ ⟨[], "/a".toList, true⟩ := by
  refine ⟨by decide, ⟨.refl _, by decide⟩, ?_⟩
  unfold Above
  decide

end DockerEngine.Volumes.Order
