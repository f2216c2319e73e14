import DockerEngine.Archive.Changes
import DockerEngine.Lib.Preorder

/-!
# The walk that leaves out what two directories share

Two ways to collect the file infos that `addChanges` compares. `collectFileInfo` of
`pkg/archive/changes_other.go` walks one directory and records all of it. `collectFileInfoForChanges`
of `pkg/archive/changes_linux.go` walks two directories side by side and leaves out a name that both
have with one inode, without looking at it again.

`changes_walker` is the result: on directories in which one inode means one content, both give the
same changes, and neither walk fails. The pruned trees are not the complete ones; what makes them
equivalent is `Trimmed.reported`, which is about any two pairs of trees of which one lacks paths that do
not differ in the other.

A directory is a tree of entries. It does not change during a walk, `lstat`, `getdents` and `lgetxattr`
do not fail on what is there, and every inode number is positive, as that of a file is.
-/

namespace DockerEngine.Archive.Walker

open Filepath List NameTree

/-! ## Directories -/

/-- `syscall.S_IFMT`. -/
def sIFMT : Nat := 0o170000

/-- What `lstat` and `lgetxattr` tell of a file. -/
structure Entry where
  dev : Nat
  ino : Nat
  info : Info
  ino_pos : 0 < ino
  deriving DecidableEq

/-- `os.FileInfo.IsDir`. -/
def Entry.isDir (e : Entry) : Bool := (e.info.stat.mode &&& sIFMT) == sIFDIR

/-- A directory with all that is below it. -/
abbrev Disk := NameTree Str Entry

section

variable (d : Disk) (path : Str)

/-- Names are those of files, and only directories have files in them. -/
def Disk.Wf : Prop := d.Named Proper fun e => e.isDir = true

/-- A directory has the bit that `FileInfo.isDir` looks at. -/
theorem Entry.info_isDir {e : Entry} (h : e.isDir) : e.info.isDir := by
  have hmode : e.info.stat.mode &&& sIFMT = sIFDIR := by simpa [Entry.isDir] using h
  have hbit : e.info.stat.mode &&& sIFDIR = sIFDIR := by
    calc e.info.stat.mode &&& sIFDIR = e.info.stat.mode &&& (sIFMT &&& sIFDIR) := rfl
      _ = sIFDIR &&& sIFDIR := by rw [← Nat.and_assoc, hmode]
      _ = sIFDIR := rfl
  rw [Info.isDir, hbit]
  rfl

/-- `os.Lstat` of a path below the directory. -/
def lstat : Option Entry := d.look (comps path)

/-- What `getdents` returns: the two useless names and the files, in the order of the disk. -/
def dirents : List (Str × Nat) :=
  match d.get (comps path) with
  | none => []
  | some t => (dot, t.val.ino) :: (dotdot, ((d.look (comps path).dropLast).map Entry.ino).getD 0) ::
      t.kids.map fun k => (k.1, k.2.val.ino)

/-- `parseDirent`. -/
def parseDirent (buf : List (Str × Nat)) : List (Str × Nat) := buf.filter fun e => e.2 ≠ 0 ∧ e.1 ≠ dot ∧ e.1 ≠ dotdot

/-- `readdirnames`: names with inode numbers, sorted by name. -/
def readdirnames : List (Str × Nat) := (parseDirent (dirents d path)).insertionSort fun a b => a.1 ≤ b.1

/-! ## The pruning walk -/

/-- How a walk ends early: `Unexpectedly no parent`, a path that is not below the source directory, a
file that is not there, and the end of the fuel. -/
inductive WalkErr where
  | noParent (path : Str)
  | notBelow (path : Str)
  | missing (path : Str)
  | depth
  deriving DecidableEq, Repr

/-- Registering a file under its parent, in either walk. -/
def register (fi : Entry) (root : FileInfo) : Except WalkErr FileInfo :=
  match root.put (comps (dir path)) (base path) (.node fi.info []) with
  | none => .error (.noParent path)
  | some root => .ok root

/-- `walkchunk`. -/
def walkchunk (fi : Option Entry) (root : FileInfo) : Except WalkErr FileInfo :=
  match fi with
  | none => .ok root
  | some fi => register path fi root

/-- The loop of `walk` over the two sorted lists of names. -/
def mergeNames (sameDevice : Bool) : List (Str × Nat) → List (Str × Nat) → List Str
  | [], names2 => names2.map Prod.fst
  | names1, [] => names1.map Prod.fst
  | ni1 :: names1, ni2 :: names2 =>
    if ni1.1 < ni2.1 then ni1.1 :: mergeNames sameDevice names1 (ni2 :: names2)
    else if ni2.1 < ni1.1 then ni2.1 :: mergeNames sameDevice (ni1 :: names1) names2
    else if ni1.2 ≠ ni2.2 ∨ !sameDevice then ni1.1 :: mergeNames sameDevice names1 names2
    else mergeNames sameDevice names1 names2
termination_by names1 names2 => names1.length + names2.length

/-- `sameDevice` of `walk`. -/
def sameDevice : Option Entry → Option Entry → Bool
  | some i1, some i2 => i1.dev == i2.dev
  | _, _ => false

/-- The first lines of `walk`: both trees get the file, unless it is the root they have already. -/
def registerBoth (i1 i2 : Option Entry) (roots : FileInfo × FileInfo) : Except WalkErr (FileInfo × FileInfo) :=
  if path = absPath [] then pure roots
  else do
    let root1 ← walkchunk path i1 roots.1
    let root2 ← walkchunk path i2 roots.2
    pure (root1, root2)

end

/-- `walk`. -/
def walk (d1 d2 : Disk) : Nat → Str → Option Entry → Option Entry → FileInfo × FileInfo →
    Except WalkErr (FileInfo × FileInfo)
  | 0, _, _, _, _ => .error .depth
  | fuel + 1, path, i1, i2, roots => do
    let roots ← registerBoth path i1 i2 roots
    let is1Dir := i1.any Entry.isDir
    let is2Dir := i2.any Entry.isDir
    if !is1Dir && !is2Dir then pure roots
    else
      let names1 := if is1Dir then readdirnames d1 path else []
      let names2 := if is2Dir then readdirnames d2 path else []
      (mergeNames (sameDevice i1 i2) names1 names2).foldlM (fun roots name =>
        let fname := join [path, name]
        let cInfo1 := if is1Dir then lstat d1 fname else none
        let cInfo2 := if is2Dir then lstat d2 fname else none
        walk d1 d2 fuel fname cInfo1 cInfo2 roots) roots

/-- `newRootFileInfo`. It has no stat; `isDir` is true of it. -/
def newRootFileInfo : FileInfo := .node ⟨⟨sIFDIR, 0, 0, 0, 0, ⟨0, 0⟩⟩, []⟩ []

/-- `collectFileInfoForChanges` on Linux. -/
def collectFileInfoForChanges (d1 d2 : Disk) : Except WalkErr (FileInfo × FileInfo) :=
  walk d1 d2 (max d1.height d2.height) (absPath []) (d1.look []) (d2.look []) (newRootFileInfo, newRootFileInfo)

/-! ## The complete walk -/

/-- The function that `collectFileInfo` gives to `filepath.Walk`. -/
def collectVisit (sourceDir path : Str) (f : Option Entry) (root : FileInfo) : Except WalkErr FileInfo :=
  match f with
  | none => .error (.missing path)
  | some f =>
    match rel sourceDir path with
    | none => .error (.notBelow path)
    | some relPath =>
      let relPath := join [absPath [], relPath]
      if relPath = absPath [] then .ok root else register relPath f root

/-- `filepath.Walk` over the directory `sourceDir`: the file at `pos`, then what is in it, by name. -/
def collectWalk (sourceDir : List Str) (d : Disk) : Nat → List Str → FileInfo → Except WalkErr FileInfo
  | 0, _, _ => .error .depth
  | fuel + 1, pos, root => do
    let root ← collectVisit (absPath sourceDir) (absPath (sourceDir ++ pos)) (d.look pos) root
    let names := if (d.look pos).any Entry.isDir then readdirnames d (absPath pos) else []
    (names.map Prod.fst).foldlM (fun root name => collectWalk sourceDir d fuel (pos ++ [name]) root) root

/-- `collectFileInfo`. -/
def collectFileInfo (sourceDir : List Str) (d : Disk) : Except WalkErr FileInfo :=
  collectWalk sourceDir d d.height [] newRootFileInfo

/-! ## Lists of names -/

section Names

variable {d : Disk} {pos : List Str}

theorem mem_readdirnames (hd : d.Wf) (hpos : AllProper pos) {n : Str} {i : Nat} :
    (n, i) ∈ readdirnames d (absPath pos) ↔ ∃ e, d.look (pos ++ [n]) = some e ∧ e.ino = i := by
  rw [readdirnames, mem_insertionSort, parseDirent, mem_filter, dirents,
    comps_absPath_proper hpos, show d.look (pos ++ [n]) = (d.get (pos ++ [n])).map val from rfl,
    get_snoc]
  cases hg : d.get pos with
  | none => simp
  | some t =>
    obtain ⟨hnd, hproper, -⟩ := (NameTree.All.get hd hg).here
    simp only [mem_cons, Prod.mk.injEq, decide_eq_true_eq, mem_map, Option.bind_some, Option.map_eq_some_iff]
    constructor
    · rintro ⟨⟨rfl, -⟩ | ⟨rfl, -⟩ | ⟨k, hk, rfl, rfl⟩, -, h1, h2⟩
      · exact absurd rfl h1
      · exact absurd rfl h2
      · exact ⟨k.2.val, ⟨k.2, lookup_of_mem hnd hk, rfl⟩, rfl⟩
    · rintro ⟨e, ⟨c, hc, rfl⟩, rfl⟩
      have hk := mem_of_lookup hc
      have hn := hproper _ hk
      exact ⟨.inr (.inr ⟨(n, c), hk, rfl, rfl⟩), c.val.ino_pos.ne', hn.2.1, hn.2.2.1⟩

/-- The names are sorted, and none comes twice. -/
theorem readdirnames_sorted (hd : d.Wf) (path : Str) : ((readdirnames d path).map Prod.fst).Pairwise (· < ·) := by
  have hle : ((readdirnames d path).map Prod.fst).Pairwise (· ≤ ·) :=
    pairwise_map.mpr (pairwise_insertionSort (fun a b : Str × Nat => a.1 ≤ b.1) _)
  have hnd : ((readdirnames d path).map Prod.fst).Nodup := by
    refine (((perm_insertionSort _ _).map Prod.fst).nodup_iff).mpr ?_
    rw [dirents]
    cases hg : d.get (comps path) with
    | none => exact nodup_nil
    | some t =>
      obtain ⟨hnd, -, -⟩ := (NameTree.All.get hd hg).here
      have hrest : ((parseDirent (t.kids.map fun k => (k.1, k.2.val.ino))).map Prod.fst).Nodup := by
        refine (filter_sublist.map Prod.fst).nodup ?_
        rw [map_map]
        exact hnd
      simpa [parseDirent] using hrest
  exact hle.imp₂ (fun a b => lt_of_le_of_ne) hnd

end Names

variable {n : Str}

variable {k : Str × Nat} {same : Bool}

theorem mem_cons_name (h : n ≠ k.1) (l : List (Str × Nat)) :
    (n ∈ (k :: l).map Prod.fst ↔ n ∈ l.map Prod.fst) ∧ ∀ i, (n, i) ∈ k :: l ↔ (n, i) ∈ l := by
  refine ⟨by simp [h], fun i => ?_⟩
  rw [mem_cons, or_iff_right]
  rintro rfl
  exact h rfl

/-- The first name of a sorted list stands once. -/
theorem first_name {l : List (Str × Nat)}
    (h : ((k :: l).map Prod.fst).Pairwise (· < ·)) {m : Str} (hm : m ≤ k.1) :
    m ∉ l.map Prod.fst ∧ ∀ i, (m, i) ∉ l := by
  rw [map_cons, pairwise_cons] at h
  have hnot : m ∉ l.map Prod.fst := fun hmem => absurd (h.1 m hmem) (not_lt_of_ge hm)
  exact ⟨hnot, fun i hi => hnot (mem_map_of_mem hi)⟩

/-- A name before the first of a sorted list is not in it. -/
theorem smaller_name {l : List (Str × Nat)} (h : ((k :: l).map Prod.fst).Pairwise (· < ·)) {m : Str} (hm : m < k.1) :
    m ∉ (k :: l).map Prod.fst ∧ ∀ i, (m, i) ∉ k :: l := by
  rw [(mem_cons_name hm.ne l).1]
  exact ⟨(first_name h hm.le).1, fun i => mt ((mem_cons_name hm.ne l).2 i).mp ((first_name h hm.le).2 i)⟩

/-- What two sorted lists are merged to: the names of either, without those that both have with one
inode on one device. -/
theorem mem_mergeNames {l1 l2 : List (Str × Nat)}
    (h1 : (l1.map Prod.fst).Pairwise (· < ·)) (h2 : (l2.map Prod.fst).Pairwise (· < ·)) :
    n ∈ mergeNames same l1 l2 ↔ (n ∈ l1.map Prod.fst ∨ n ∈ l2.map Prod.fst) ∧
      ¬ (same ∧ ∃ i, (n, i) ∈ l1 ∧ (n, i) ∈ l2) := by
  fun_induction mergeNames same l1 l2 with
  | case1 l2 => simp
  | case2 l1 => simp
  | case3 ni1 l1 ni2 l2 hlt ih =>
    rw [mem_cons, ih h1.of_cons h2]
    by_cases hn : n = ni1.1
    · subst hn
      simp [-mem_cons, mem_cons_self, (smaller_name h2 hlt).2]
    · simp [hn, (mem_cons_name hn l1).2]
  | case4 ni1 l1 ni2 l2 hnlt hlt ih =>
    rw [mem_cons, ih h1 h2.of_cons]
    by_cases hn : n = ni2.1
    · subst hn
      simp [-mem_cons, mem_cons_self, (smaller_name h1 hlt).2]
    · simp [hn, (mem_cons_name hn l2).2]
  | case5 ni1 l1 ni2 l2 hnlt hnlt' hdiff ih =>
    have heq : ni1.1 = ni2.1 := le_antisymm (not_lt.mp hnlt') (not_lt.mp hnlt)
    rw [mem_cons, ih h1.of_cons h2.of_cons]
    by_cases hn : n = ni1.1
    · have h1' := (first_name h1 hn.le).2
      have h2' := (first_name h2 (hn.trans heq).le).2
      refine ⟨fun _ => ⟨.inl (by simp [hn]), ?_⟩, fun _ => .inl hn⟩
      rintro ⟨rfl, i, hi1, hi2⟩
      have e1 := (mem_cons.mp hi1).resolve_right (h1' i)
      have e2 := (mem_cons.mp hi2).resolve_right (h2' i)
      rw [← e1, ← e2] at hdiff
      simp at hdiff
    · have hn' : n ≠ ni2.1 := heq ▸ hn
      simp only [hn, false_or, (mem_cons_name hn l1).1, (mem_cons_name hn l1).2,
        (mem_cons_name hn' l2).1, (mem_cons_name hn' l2).2]
  | case6 ni1 l1 ni2 l2 hnlt hnlt' hsame ih =>
    have heq : ni1.1 = ni2.1 := le_antisymm (not_lt.mp hnlt') (not_lt.mp hnlt)
    rw [ih h1.of_cons h2.of_cons]
    by_cases hn : n = ni1.1
    · have h1' := (first_name h1 hn.le).1
      have h2' := (first_name h2 (hn.trans heq).le).1
      rw [not_or, not_not] at hsame
      refine iff_of_false (fun h => h.1.elim h1' h2') fun h => h.2 ⟨by simpa using hsame.2, ni1.2, ?_, ?_⟩
      · rw [hn]; exact mem_cons_self
      · rw [hn, heq, hsame.1]; exact mem_cons_self
    · have hn' : n ≠ ni2.1 := heq ▸ hn
      simp only [(mem_cons_name hn l1).1, (mem_cons_name hn l1).2, (mem_cons_name hn' l2).1, (mem_cons_name hn' l2).2]

theorem mergeNames_nodup {l1 l2 : List (Str × Nat)}
    (h1 : (l1.map Prod.fst).Pairwise (· < ·)) (h2 : (l2.map Prod.fst).Pairwise (· < ·)) :
    (mergeNames same l1 l2).Nodup := by
  fun_induction mergeNames same l1 l2 with
  | case1 l2 => exact h2.imp ne_of_lt
  | case2 l1 => exact h1.imp ne_of_lt
  | case3 ni1 l1 ni2 l2 hlt ih =>
    have h1' := h1.of_cons
    refine nodup_cons.mpr ⟨fun hmem => ?_, ih h1' h2⟩
    rcases ((mem_mergeNames h1' h2).mp hmem).1 with h | h
    · exact (first_name h1 le_rfl).1 h
    · exact (smaller_name h2 hlt).1 h
  | case4 ni1 l1 ni2 l2 hnlt hlt ih =>
    have h2' := h2.of_cons
    refine nodup_cons.mpr ⟨fun hmem => ?_, ih h1 h2'⟩
    rcases ((mem_mergeNames h1 h2').mp hmem).1 with h | h
    · exact (smaller_name h1 hlt).1 h
    · exact (first_name h2 le_rfl).1 h
  | case5 ni1 l1 ni2 l2 hnlt hnlt' hdiff ih =>
    have h1' := h1.of_cons
    have h2' := h2.of_cons
    refine nodup_cons.mpr ⟨fun hmem => ?_, ih h1' h2'⟩
    rcases ((mem_mergeNames h1' h2').mp hmem).1 with h | h
    · exact (first_name h1 le_rfl).1 h
    · exact (first_name h2 (not_lt.mp hnlt')).1 h
  | case6 ni1 l1 ni2 l2 hnlt hnlt' hsame ih =>
    exact ih h1.of_cons h2.of_cons

/-! ## The paths a walk visits -/

/-- What a walk reads in the directory at `pos`, if there is one. -/
def listing (d : Disk) (pos : List Str) : List (Str × Nat) :=
  if (d.look pos).any Entry.isDir then readdirnames d (absPath pos) else []

variable {d : Disk}

theorem listing_sorted (hd : d.Wf) (pos : List Str) : ((listing d pos).map Prod.fst).Pairwise (· < ·) := by
  unfold listing
  split
  · exact readdirnames_sorted hd _
  · exact List.Pairwise.nil

variable {pos : List Str}

theorem mem_listing (hd : d.Wf) (hpos : AllProper pos)
    {i : Nat} : (n, i) ∈ listing d pos ↔ ∃ e, d.look (pos ++ [n]) = some e ∧ e.ino = i := by
  unfold listing
  split
  next => exact mem_readdirnames hd hpos
  next hdir =>
    refine iff_of_false not_mem_nil fun ⟨e, he, _⟩ => hdir ?_
    obtain ⟨-, b, hb, hisDir⟩ := hd.parent he
    rw [hb]
    exact hisDir

theorem mem_listing_names (hd : d.Wf) (hpos : AllProper pos) : n ∈ (listing d pos).map Prod.fst ↔ d.look
    (pos ++ [n]) ≠ none := by
  rw [Option.ne_none_iff_exists', mem_map]
  constructor
  · rintro ⟨⟨m, i⟩, hm, rfl⟩
    obtain ⟨e, he, -⟩ := (mem_listing hd hpos).mp hm
    exact ⟨e, he⟩
  · rintro ⟨e, he⟩
    exact ⟨(n, e.ino), (mem_listing hd hpos).mpr ⟨e, he, rfl⟩, rfl⟩

/-- The names that `walk` goes on with below `pos`. -/
def followed (d1 d2 : Disk) (pos : List Str) : List Str :=
  mergeNames (sameDevice (d1.look pos) (d2.look pos)) (listing d1 pos) (listing d2 pos)

section Walk

variable {d1 d2 : Disk}

variable {pos : List Str} {n : Str}

/-- Below a path of the disks, a name is left out only where the inode and the device of the
directories are the same. -/
theorem mem_followed (hd1 : d1.Wf) (hd2 : d2.Wf) (hpos : AllProper pos) : n ∈ followed d1 d2 pos ↔
      (d1.look (pos ++ [n]) ≠ none ∨ d2.look (pos ++ [n]) ≠ none) ∧
      ¬ (sameDevice (d1.look pos) (d2.look pos) ∧ ∃ e f, d1.look (pos ++ [n]) = some e ∧
        d2.look (pos ++ [n]) = some f ∧ e.ino = f.ino) := by
  rw [followed, mem_mergeNames (listing_sorted hd1 pos) (listing_sorted hd2 pos),
    mem_listing_names hd1 hpos, mem_listing_names hd2 hpos]
  refine and_congr_right fun _ => not_congr (and_congr_right fun _ => ?_)
  constructor
  · rintro ⟨i, hi1, hi2⟩
    obtain ⟨e, he, rfl⟩ := (mem_listing hd1 hpos).mp hi1
    obtain ⟨f, hf, hef⟩ := (mem_listing hd2 hpos).mp hi2
    exact ⟨e, f, he, hf, hef.symm⟩
  · rintro ⟨e, f, he, hf, hef⟩
    exact ⟨e.ino, (mem_listing hd1 hpos).mpr ⟨e, he, rfl⟩, (mem_listing hd2 hpos).mpr ⟨f, hf, hef.symm⟩⟩

/-- What a walk does at one path of a tree: nothing at the root. -/
def chunkStep (d : Disk) (root : FileInfo) (pos : List Str) : Except WalkErr FileInfo :=
  if pos = [] then .ok root else walkchunk (absPath pos) (d.look pos) root

theorem absPath_eq_root (hpos : AllProper pos) : absPath pos = absPath [] ↔ pos = [] :=
  ⟨absPath_injective hpos nofun, fun h => h ▸ rfl⟩

/-- A side that is not a directory has nothing below it. -/
theorem lstat_child {d : Disk} (hd : d.Wf) (hpos : AllProper pos)
    (hn : Proper n) : (if (d.look pos).any Entry.isDir then lstat d (join [absPath pos, n]) else none) =
      d.look (pos ++ [n]) := by
  rw [path_child hpos hn, lstat, comps_absPath_proper (proper_snoc hpos hn)]
  split
  next => rfl
  next hdir =>
    cases he : d.look (pos ++ [n]) with
    | none => rfl
    | some e =>
      obtain ⟨-, b, hb, hisDir⟩ := hd.parent he
      rw [hb] at hdir
      exact absurd hisDir hdir

/-- **The pruning walk** registers the paths it follows, one after another, in both trees. -/
theorem walk_eq (hd1 : d1.Wf) (hd2 : d2.Wf) (fuel : Nat) (pos : List Str) (roots : FileInfo × FileInfo)
    (hthere : d1.look pos ≠ none ∨ d2.look pos ≠ none)
    (hfuel : ∀ p, d1.look p ≠ none ∨ d2.look p ≠ none → p.length < pos.length + fuel) :
    walk d1 d2 fuel (absPath pos) (d1.look pos) (d2.look pos) roots =
      (preorder (followed d1 d2) fuel pos).foldlM (fun st p => do
        let root1 ← chunkStep d1 st.1 p
        let root2 ← chunkStep d2 st.2 p
        pure (root1, root2)) roots := by
  induction fuel generalizing pos roots with
  | zero => exact absurd (hfuel pos hthere) (by simp)
  | succ fuel ih =>
    have hpos : AllProper pos := hthere.elim hd1.names hd2.names
    -- the node itself
    have hnode : registerBoth (absPath pos) (d1.look pos) (d2.look pos) roots = (do
        let root1 ← chunkStep d1 roots.1 pos
        let root2 ← chunkStep d2 roots.2 pos
        pure (root1, root2)) := by
      unfold registerBoth
      by_cases h0 : pos = []
      · rw [if_pos ((absPath_eq_root hpos).mpr h0), chunkStep, chunkStep, if_pos h0, if_pos h0]; rfl
      · rw [if_neg (mt (absPath_eq_root hpos).mp h0), chunkStep, chunkStep, if_neg h0, if_neg h0]
    -- what is below it
    have hbelow : ∀ roots : FileInfo × FileInfo,
        (followed d1 d2 pos).foldlM (fun roots name =>
          walk d1 d2 fuel (join [absPath pos, name])
            (if (d1.look pos).any Entry.isDir then lstat d1 (join [absPath pos, name]) else none)
            (if (d2.look pos).any Entry.isDir then lstat d2 (join [absPath pos, name]) else none)
            roots) roots =
        ((followed d1 d2 pos).flatMap fun n => preorder (followed d1 d2) fuel (pos ++ [n])).foldlM
          (fun st p => do
            let root1 ← chunkStep d1 st.1 p
            let root2 ← chunkStep d2 st.2 p
            pure (root1, root2)) roots := by
      intro roots
      rw [foldlM_flatMap]
      refine foldlM_congr_mem (fun roots name hname => ?_) roots
      have hthere := ((mem_followed hd1 hd2 hpos).mp hname).1
      have hn : Proper name :=
        hthere.elim (fun h => hd1.names h name (by simp)) fun h => hd2.names h name (by simp)
      rw [lstat_child hd1 hpos hn, lstat_child hd2 hpos hn, path_child hpos hn]
      refine ih _ roots hthere fun p hp => ?_
      have := hfuel p hp
      rw [length_append, length_singleton]
      omega
    rw [preorder, foldlM_cons, ← hnode, walk]
    refine bind_congr fun roots => ?_
    rw [← hbelow]
    by_cases hleaf : (!(d1.look pos).any Entry.isDir && !(d2.look pos).any Entry.isDir)
    · refine (if_pos hleaf).trans ?_
      have hnone : followed d1 d2 pos = [] := by
        simp only [Bool.and_eq_true, Bool.not_eq_true'] at hleaf
        simp [followed, listing, hleaf.1, hleaf.2, mergeNames]
      rw [hnone]
      rfl
    · exact if_neg hleaf

/-- A path that the pruning walk follows is there. -/
theorem leads_followed (hd1 : d1.Wf) (hd2 : d2.Wf) {r : List Str} (h : Leads (followed d1 d2) [] r) :
    d1.look r ≠ none ∨ d2.look r ≠ none := by
  induction r using reverseRecOn with
  | nil => exact .inl (by rw [look_nil]; exact Option.some_ne_none _)
  | append_singleton q n ih =>
    obtain ⟨hq, hn, -⟩ := leads_append.mp h
    rw [nil_append] at hn
    exact ((mem_followed hd1 hd2 ((ih hq).elim hd1.names hd2.names)).mp hn).1

end Walk

/-- The names that `filepath.Walk` goes on with below `pos`. -/
def listed (d : Disk) (pos : List Str) : List Str := (listing d pos).map Prod.fst

variable {r : List Str}

theorem leads_listed (hd : d.Wf) : Leads (listed d) [] r ↔ d.look r ≠ none := by
  induction r using reverseRecOn with
  | nil =>
    rw [look_nil]
    exact iff_of_true trivial (Option.some_ne_none _)
  | append_singleton q n ih =>
    rw [leads_append, nil_append, Leads, ih]
    constructor
    · rintro ⟨hq, hn, -⟩
      exact (mem_listing_names hd (hd.names hq)).mp hn
    intro h
    obtain ⟨e, he⟩ := Option.ne_none_iff_exists'.mp h
    obtain ⟨-, b, hb, -⟩ := hd.parent he
    have hq : d.look q ≠ none := by rw [hb]; exact Option.some_ne_none b
    exact ⟨hq, (mem_listing_names hd (hd.names hq)).mpr h, trivial⟩

variable {src : List Str}

/-- The path that `collectFileInfo` registers a file under. -/
theorem rel_below (hsrc : AllProper src) (hpos : AllProper pos) :
    ∃ r, rel (absPath src) (absPath (src ++ pos)) = some r ∧ join [absPath [], r] = absPath pos := by
  have hall : AllProper (src ++ pos) := fun n hn =>
    (mem_append.mp hn).elim (hsrc n) (hpos n)
  refine ⟨_, rel_absPath hsrc hall, ?_⟩
  have hstrip : stripCommon src (src ++ pos) = ([], pos) := by
    have := stripCommon_append src [] pos
    rw [append_nil] at this
    rw [this]
    cases pos <;> rfl
  rw [join_absPath (by simp), hstrip]
  split
  next h =>
    have h0 : pos = [] := by simpa using h
    rw [h0, comps_dot, walk_dot]
  next =>
    rw [length_nil, replicate_zero, nil_append,
      comps_joinSlash fun n hn => (hpos n hn).elem, walk_proper [] hpos, nil_append]

/-- **The complete walk** registers every path of the disk. -/
theorem collectWalk_eq (hd : d.Wf) (hsrc : AllProper src) (fuel : Nat)
    (pos : List Str) (root : FileInfo) (hthere : d.look pos ≠ none)
    (hfuel : ∀ p, d.look p ≠ none → p.length < pos.length + fuel) :
    collectWalk src d fuel pos root = (preorder (listed d) fuel pos).foldlM (chunkStep d) root := by
  induction fuel generalizing pos root with
  | zero => exact absurd (hfuel pos hthere) (by simp)
  | succ fuel ih =>
    obtain ⟨e, he⟩ := Option.ne_none_iff_exists'.mp hthere
    obtain ⟨r, hr, hjoin⟩ := rel_below hsrc (hd.names hthere)
    have hvisit : collectVisit (absPath src) (absPath (src ++ pos)) (d.look pos) root = chunkStep d root pos := by
      rw [he, collectVisit, hr]
      simp only [hjoin, absPath_eq_root (hd.names hthere)]
      rw [chunkStep, he]
      rfl
    rw [preorder, foldlM_cons, collectWalk, hvisit]
    refine bind_congr fun root => ?_
    rw [foldlM_flatMap]
    refine foldlM_congr_mem (fun root name hname => ?_) root
    refine ih _ root ((mem_listing_names hd (hd.names hthere)).mp hname) fun p hp => ?_
    have := hfuel p hp
    rw [length_append, length_singleton]
    omega

/-! ## The trees that are built -/

/-- What a tree that has every file shows. -/
def shown (d : Disk) (r : List Str) : Option Info :=
  if r = [] then some newRootFileInfo.val else (d.look r).map Entry.info

theorem shown_eq_none (h : d.look r = none) : shown d r = none := by
  have h0 : r ≠ [] := by
    rintro rfl
    rw [look_nil] at h
    cases h
  rw [shown, if_neg h0, h]
  rfl

/-- Registering the files of a walk gives a tree that shows those it followed. -/
theorem build_spec (hd : d.Wf) {names : List Str → List Str} (hnd : ∀ p, (names p).Nodup)
    {fuel : Nat} (hfuel : ∀ r, Leads names [] r → r.length < fuel) :
    ∃ t, (preorder names fuel []).foldlM (chunkStep d) newRootFileInfo = .ok t ∧ t.Wf ∧
      (∀ r, Leads names [] r → t.look r = shown d r) ∧ ∀ r, ¬ Leads names [] r → t.look r = none := by
  obtain ⟨fuel, rfl⟩ := Nat.exists_eq_succ_of_ne_zero (hfuel [] trivial).ne'
  set below := (names []).flatMap fun n => preorder names fuel ([] ++ [n]) with hbelow
  have hmem : ∀ r, (r = [] ∨ r ∈ below) ↔ Leads names [] r := by
    intro r
    have : r ∈ preorder names (fuel + 1) [] ↔ Leads names [] r := by
      rw [mem_preorder]
      constructor
      · rintro ⟨s, rfl, -, hs⟩
        exact hs
      · exact fun hr => ⟨r, rfl, hfuel r hr, hr⟩
    rwa [preorder, mem_cons] at this
  have hordered : Ordered (fun q => q = []) below :=
    below_ordered (preorder_ordered hnd fuel) [] (fun q => q = []) rfl (hnd []) (by simp)
  -- what is above a file is a directory, or the root
  have hparent : ∀ ds n i, shown d (ds ++ [n]) = some i → Proper n ∧ ∃ j, shown d ds = some j ∧ j.isDir := by
    intro ds n i hi
    rw [shown, if_neg (by simp)] at hi
    obtain ⟨e, he, -⟩ := Option.map_eq_some_iff.mp hi
    obtain ⟨hn, b, hb, hdir⟩ := hd.parent he
    refine ⟨hn, ?_⟩
    by_cases h0 : ds = []
    · exact ⟨newRootFileInfo.val, if_pos h0, rfl⟩
    · exact ⟨b.info, by rw [shown, if_neg h0, hb]; rfl, Entry.info_isDir hdir⟩
  have hskip : ∀ t, ∀ p ∈ below, shown d p = none → chunkStep d t p = .ok t := by
    intro t p _ hp
    have h0 : p ≠ [] := by
      rintro rfl
      cases hp
    rw [shown, if_neg h0, Option.map_eq_none_iff] at hp
    rw [chunkStep, if_neg h0, hp]
    rfl
  have hput : ∀ (t t' : FileInfo) ds n i, ds ++ [n] ∈ below → shown d (ds ++ [n]) = some i →
      t.put ds n (.node i []) = some t' → chunkStep d t (ds ++ [n]) = .ok t' := by
    intro t t' ds n i _ hi hput
    rw [shown, if_neg (by simp)] at hi
    obtain ⟨e, he, rfl⟩ := Option.map_eq_some_iff.mp hi
    have hproper := hd.names (p := ds ++ [n]) (by rw [he]; exact Option.some_ne_none e)
    have hds : AllProper ds := (forall_mem_append.mp hproper).1
    have hn : Proper n := hproper n (by simp)
    rw [chunkStep, if_neg (by simp), he, walkchunk, register, dir_absPath_snoc hds hn,
      base_absPath_snoc hds hn, comps_absPath_proper hds, hput]
  have hroot : newRootFileInfo.Wf := .node ⟨nodup_nil, forall_mem_nil _, absurd rfl⟩ (forall_mem_nil _)
  have hrest : ∀ r, ¬ r = [] → newRootFileInfo.look r = none := by
    intro r hr
    cases r with
    | nil => exact absurd rfl hr
    | cons n r => rfl
  obtain ⟨t, hrun, hwf, hin, hout⟩ := foldlM_put (shown d) Proper (fun i => i.isDir)
    (chunkStep d) hparent hskip hput hordered hroot (fun r hr => hr ▸ rfl) hrest
  refine ⟨t, ?_, hwf, fun r hr => hin r ((hmem r).mpr hr), fun r hr => hout r (mt (hmem r).mp hr)⟩
  rw [preorder, foldlM_cons]
  exact hrun

/-! ## Trees that are trimmed alike -/

theorem differs_self (i : Info) : i.differs i = false := by
  simp [Info.differs, statDifferent, sameFsTimeSpec]

/-- Of two pairs of trees the second pair has the paths of `V` only, and outside of `V` the trees of
the first pair are the same. -/
structure Trimmed (V : List Str → Prop) (new old new' old' : List Str → Option Info) : Prop where
  root : V []
  closed : ∀ q s, V (q ++ s) → V q
  new_kept : ∀ r, V r → new' r = new r
  old_kept : ∀ r, V r → old' r = old r
  new_gone : ∀ r, ¬ V r → new' r = none
  old_gone : ∀ r, ¬ V r → old' r = none
  same : ∀ r, ¬ V r → new r = old r

/-- What is outside of `V` is reported in neither pair, and what is inside in both. -/
theorem Trimmed.reported {V : List Str → Prop} {new old new' old' : List Str → Option Info}
    (h : Trimmed V new old new' old') (hdirs : ∀ p i, new p = some i → DirsAbove new p) {p : List Str}
    {k : ChangeType} : Reported new old p k ↔ Reported new' old' p k := by
  have habove : ∀ {p}, V p → (DirsAbove new' p ↔ DirsAbove new p) := by
    intro p hp
    refine forall_congr' fun d => forall_congr' fun hd => ?_
    obtain ⟨q, rfl⟩ := hd
    rw [h.new_kept d (h.closed d q hp)]
  have hgone : ∀ {p k}, ¬ V p → ¬ Reported new' old' p k := by
    intro p k hp hk
    have hnew := h.new_gone p hp
    cases k with
    | add => exact hk.1 hnew
    | delete => exact hk.2.2 (h.old_gone p hp)
    | modify =>
      obtain ⟨-, i, j, hi, -⟩ := hk
      rw [hnew] at hi
      cases hi
  have hsame : ∀ {p}, ¬ V p → ¬ Primary new old p := by
    intro p hp
    rw [Primary, ← h.same p hp]
    rintro (⟨hnew, hold⟩ | ⟨hnew, -, hold⟩ | ⟨-, i, j, hi, hj, hdiff⟩)
    · obtain ⟨i, hi⟩ := Option.ne_none_iff_exists'.mp hnew
      exact hold ⟨hdirs p i hi, hnew⟩
    · exact hold hnew
    · rw [hi] at hj
      rw [Option.some.inj hj, differs_self] at hdiff
      cases hdiff
  have hprimary : ∀ q, Primary new old q ↔ Primary new' old' q := by
    intro q
    by_cases hq : V q
    · rw [Primary, Primary, habove hq, h.new_kept q hq, h.old_kept q hq]
    · refine iff_of_false (hsame hq) fun hp => ?_
      obtain ⟨k, hk⟩ := hp.reported
      exact hgone hq hk
  by_cases hp : V p
  · cases k <;> simp only [Reported, habove hp, h.new_kept p hp, h.old_kept p hp, hprimary]
  · refine iff_of_false (fun hk => ?_) (hgone hp)
    obtain ⟨r, hr⟩ := hk.primary
    exact hsame (fun hV => hp (h.closed p r hV)) hr

/-! ## Both walks -/

/-- Two disks on which one inode means one content: files with one device and inode at one path are
the same, with all that is below them; and a file is on the device of its directory. -/
structure Shared (d1 d2 : Disk) : Prop where
  same : ∀ p e f, d1.look p = some e → d2.look p = some f → e.dev = f.dev → e.ino = f.ino →
    ∀ q, (d1.look (p ++ q)).map Entry.info = (d2.look (p ++ q)).map Entry.info
  device1 : ∀ p n e c, d1.look p = some e → d1.look (p ++ [n]) = some c → c.dev = e.dev
  device2 : ∀ p n e c, d2.look p = some e → d2.look (p ++ [n]) = some c → c.dev = e.dev

/-- What the pruning walk leaves out shows the same on both disks. -/
theorem Shared.same_of_not_leads {d1 d2 : Disk} (hd1 : d1.Wf) (hd2 : d2.Wf) (h : Shared d1 d2)
    (hr : ¬ Leads (followed d1 d2) [] r) : shown d1 r = shown d2 r := by
  obtain ⟨q, n, s, rfl, hq, hn⟩ := exists_of_not_leads hr
  have hproper : AllProper q := (leads_followed hd1 hd2 hq).elim hd1.names hd2.names
  have happ : q ++ n :: s = q ++ [n] ++ s := by simp
  rw [nil_append, mem_followed hd1 hd2 hproper] at hn
  by_cases hthere : d1.look (q ++ [n]) ≠ none ∨ d2.look (q ++ [n]) ≠ none
  · obtain ⟨hdev, e, f, he, hf, hino⟩ := not_not.mp fun hnot => hn ⟨hthere, hnot⟩
    obtain ⟨-, a, ha, -⟩ := hd1.parent he
    obtain ⟨-, b, hb, -⟩ := hd2.parent hf
    rw [ha, hb, sameDevice, beq_iff_eq] at hdev
    have hchild : e.dev = f.dev := by
      rw [h.device1 q n a e ha he, h.device2 q n b f hb hf, hdev]
    rw [shown, shown, if_neg (by simp), if_neg (by simp), happ]
    exact h.same _ e f he hf hchild hino s
  · rw [not_or, not_not, not_not] at hthere
    have hp : q ++ [n] <+: q ++ n :: s := ⟨s, happ.symm⟩
    rw [shown_eq_none (NameTree.look_none_of_prefix hp hthere.1),
      shown_eq_none (NameTree.look_none_of_prefix hp hthere.2)]

theorem collectFileInfo_spec (hd : d.Wf) (hsrc : AllProper src) :
    ∃ t, collectFileInfo src d = .ok t ∧ t.Wf ∧ ∀ r, t.look r = shown d r := by
  have hnd : ∀ p, (listed d p).Nodup := fun p => (listing_sorted hd p).imp ne_of_lt
  have hfuel : ∀ r, d.look r ≠ none → r.length < d.height := fun r => length_lt_height
  obtain ⟨t, hrun, hwf, hin, hout⟩ := build_spec hd hnd fun r hr => hfuel r ((leads_listed hd).mp hr)
  refine ⟨t, ?_, hwf, fun r => ?_⟩
  · rw [collectFileInfo, collectWalk_eq hd hsrc _ [] _ _ (by simpa using hfuel)]
    · exact hrun
    · rw [look_nil]
      exact Option.some_ne_none _
  · by_cases hr : d.look r = none
    · rw [hout r fun h => (leads_listed hd).mp h hr, shown_eq_none hr]
    · exact hin r ((leads_listed hd).mpr hr)

theorem collectFileInfoForChanges_spec {d1 d2 : Disk} (hd1 : d1.Wf) (hd2 : d2.Wf) :
    ∃ t1 t2, collectFileInfoForChanges d1 d2 = .ok (t1, t2) ∧ t1.Wf ∧ t2.Wf ∧
      (∀ r, Leads (followed d1 d2) [] r → t1.look r = shown d1 r ∧ t2.look r = shown d2 r) ∧
      ∀ r, ¬ Leads (followed d1 d2) [] r → t1.look r = none ∧ t2.look r = none := by
  have hnd : ∀ p, (followed d1 d2 p).Nodup := fun p =>
    mergeNames_nodup (listing_sorted hd1 p) (listing_sorted hd2 p)
  have hfuel : ∀ r, d1.look r ≠ none ∨ d2.look r ≠ none → r.length < max d1.height d2.height := by
    rintro r (h | h)
    · exact (length_lt_height h).trans_le (le_max_left _ _)
    · exact (length_lt_height h).trans_le (le_max_right _ _)
  have hlead : ∀ r, Leads (followed d1 d2) [] r → r.length < max d1.height d2.height :=
    fun r hr => hfuel r (leads_followed hd1 hd2 hr)
  obtain ⟨t1, hrun1, hwf1, hin1, hout1⟩ := build_spec hd1 hnd hlead
  obtain ⟨t2, hrun2, hwf2, hin2, hout2⟩ := build_spec hd2 hnd hlead
  refine ⟨t1, t2, ?_, hwf1, hwf2, fun r hr => ⟨hin1 r hr, hin2 r hr⟩, fun r hr => ⟨hout1 r hr, hout2 r hr⟩⟩
  rw [collectFileInfoForChanges, walk_eq hd1 hd2 _ [] _ _ (by simpa using hfuel)]
  · exact foldlM_both hrun1 hrun2
  · rw [look_nil]
    exact .inl (Option.some_ne_none _)

/-- A tree with its maps ranged over in some order: children may be listed otherwise. -/
def Ranged (t t' : FileInfo) : Prop := t'.Wf ∧ ∀ r, t'.look r = t.look r

/-- **The pruning walk gives the changes of the complete one.** On disks on which one inode means one
content, every walk succeeds, and the two pairs of trees have the same set of changes, in whatever
order the maps of the file infos are ranged over. -/
theorem changes_walker {old new : Disk} (hold : old.Wf) (hnew : new.Wf) (hshared : Shared old new)
    (oldDir newDir : List Str) (holdDir : ∀ n ∈ oldDir, Proper n) (hnewDir : ∀ n ∈ newDir, Proper n) :
    ∃ oldPruned newPruned oldRoot newRoot,
      collectFileInfoForChanges old new = .ok (oldPruned, newPruned) ∧
      collectFileInfo oldDir old = .ok oldRoot ∧ collectFileInfo newDir new = .ok newRoot ∧
      (oldPruned.Wf ∧ newPruned.Wf ∧ oldRoot.Wf ∧ newRoot.Wf) ∧
      ∀ oldPruned' newPruned' oldRoot' newRoot', Ranged oldPruned oldPruned' →
        Ranged newPruned newPruned' → Ranged oldRoot oldRoot' → Ranged newRoot newRoot' →
        ∀ c, c ∈ changes newPruned' oldPruned' ↔ c ∈ changes newRoot' oldRoot' := by
  obtain ⟨oldPruned, newPruned, hpruned, howf, hnwf, hin, hout⟩ := collectFileInfoForChanges_spec hold hnew
  obtain ⟨oldRoot, holdRoot, horwf, hor⟩ := collectFileInfo_spec hold holdDir
  obtain ⟨newRoot, hnewRoot, hnrwf, hnr⟩ := collectFileInfo_spec hnew hnewDir
  refine ⟨oldPruned, newPruned, oldRoot, newRoot, hpruned, holdRoot, hnewRoot,
    ⟨howf, hnwf, horwf, hnrwf⟩, fun op np or nr hop hnp hor' hnr' c => ?_⟩
  have htrim : Trimmed (Leads (followed old new) []) nr.look (oldLook (some or)) np.look (oldLook (some op)) :=
    { root := trivial
      closed := fun q s h => (leads_append.mp h).1
      new_kept := fun r hr => by rw [hnp.2, hnr'.2, hnr, (hin r hr).2]
      old_kept := fun r hr => by
        show op.look r = or.look r
        rw [hop.2, hor'.2, hor, (hin r hr).1]
      new_gone := fun r hr => (hnp.2 r).trans (hout r hr).2
      old_gone := fun r hr => (hop.2 r).trans (hout r hr).1
      same := fun r hr => by
        show nr.look r = or.look r
        rw [hnr'.2, hor'.2, hnr, hor, hshared.same_of_not_leads hold hnew hr] }
  rw [mem_changes hnp.1.keyed, mem_changes hnr'.1.keyed]
  exact and_congr_right fun _ => (htrim.reported fun _ _ => hnr'.1.dirsAbove).symm

/-- A file of two disks in the next theorem. -/
def sampleEntry (mode ino : Nat) (h : 0 < ino) : Entry := ⟨1, ino, ⟨⟨mode, 0, 0, 0, 0, ⟨0, 0⟩⟩, []⟩, h⟩

/-- A directory with one file. -/
def baseDisk : Disk :=
  .node (sampleEntry sIFDIR 2 (by decide)) [(['a'], .node (sampleEntry 0o100644 3 (by decide)) [])]

/-- A directory with the same file and another one. -/
def layerDisk : Disk :=
  .node (sampleEntry sIFDIR 4 (by decide)) [(['a'], .node (sampleEntry 0o100644 3 (by decide)) []),
    (['b'], .node (sampleEntry 0o100644 5 (by decide)) [])]

theorem leaf_wf (e : Entry) : Disk.Wf (.node e []) := .node ⟨nodup_nil, nofun, fun h => absurd rfl h⟩ nofun

theorem baseDisk_wf : baseDisk.Wf := by
  refine .node ⟨by decide, by decide, fun _ => rfl⟩ fun k hk => ?_
  obtain rfl := mem_singleton.mp hk
  exact leaf_wf _

theorem layerDisk_wf : layerDisk.Wf := by
  refine .node ⟨by decide, by decide, fun _ => rfl⟩ fun k hk => ?_
  simp only [mem_cons, not_mem_nil, or_false] at hk
  rcases hk with rfl | rfl
  · exact leaf_wf _
  · exact leaf_wf _

/-- The paths of a directory that has nothing but files in it. -/
theorem look_flat {e : Entry} {l : List (Str × Entry)} {p : List Str} {x : Entry}
    (h : (node e (l.map fun f => (f.1, node f.2 [])) : Disk).look p = some x) :
    p = [] ∧ x = e ∨ ∃ f ∈ l, p = [f.1] ∧ x = f.2 := by
  cases p with
  | nil => exact .inl ⟨rfl, (Option.some.inj h).symm⟩
  | cons n r =>
    rw [look_node_cons] at h
    obtain ⟨c, hc, hx⟩ := Option.bind_eq_some_iff.mp h
    obtain ⟨f, hf, heq⟩ := mem_map.mp (mem_of_lookup hc)
    cases heq
    cases r with
    | nil => exact .inr ⟨f, hf, rfl, (Option.some.inj hx).symm⟩
    | cons m r => cases hx

theorem disks_shared : Shared baseDisk layerDisk := by
  have hbase : ∀ p x, baseDisk.look p = some x → p = [] ∧ x = sampleEntry sIFDIR 2 (by decide) ∨
      p = [['a']] ∧ x = sampleEntry 0o100644 3 (by decide) := by
    intro p x h
    simpa using look_flat (l := [(['a'], sampleEntry 0o100644 3 (by decide))]) h
  have hlayer : ∀ p x, layerDisk.look p = some x → p = [] ∧ x = sampleEntry sIFDIR 4 (by decide) ∨
      p = [['a']] ∧ x = sampleEntry 0o100644 3 (by decide) ∨
      p = [['b']] ∧ x = sampleEntry 0o100644 5 (by decide) := by
    intro p x h
    simpa using look_flat (l := [(['a'], sampleEntry 0o100644 3 (by decide)),
      (['b'], sampleEntry 0o100644 5 (by decide))]) h
  refine ⟨fun p e f he hf _ hino q => ?_, fun p n e c he hc => ?_, fun p n e c he hc => ?_⟩
  · rcases hbase p e he with ⟨rfl, rfl⟩ | ⟨rfl, rfl⟩
    · rcases hlayer [] f hf with ⟨-, rfl⟩ | ⟨h, -⟩ | ⟨h, -⟩
      · cases hino
      · cases h
      · cases h
    · cases q <;> rfl
  · rcases hbase p e he with ⟨-, rfl⟩ | ⟨-, rfl⟩ <;>
      rcases hbase _ c hc with ⟨-, rfl⟩ | ⟨-, rfl⟩ <;> rfl
  · rcases hlayer p e he with ⟨-, rfl⟩ | ⟨-, rfl⟩ | ⟨-, rfl⟩ <;>
      rcases hlayer _ c hc with ⟨-, rfl⟩ | ⟨-, rfl⟩ | ⟨-, rfl⟩ <;> rfl

theorem changes_walker_sample : ∃ oldPruned newPruned oldRoot newRoot,
    collectFileInfoForChanges baseDisk layerDisk = .ok (oldPruned, newPruned) ∧
    collectFileInfo [['o']] baseDisk = .ok oldRoot ∧ collectFileInfo [['n']] layerDisk = .ok newRoot ∧
    ∀ c, c ∈ changes newPruned oldPruned ↔ c ∈ changes newRoot oldRoot := by
  obtain ⟨op, np, or, nr, hp, ho, hn, ⟨h1, h2, h3, h4⟩, h⟩ := changes_walker baseDisk_wf layerDisk_wf
    disks_shared [['o']] [['n']] (by decide) (by decide)
  exact ⟨op, np, or, nr, hp, ho, hn, h op np or nr ⟨h1, fun _ => rfl⟩ ⟨h2, fun _ => rfl⟩
    ⟨h3, fun _ => rfl⟩ ⟨h4, fun _ => rfl⟩⟩

end DockerEngine.Archive.Walker
