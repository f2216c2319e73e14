import DockerEngine.Archive.Export
import DockerEngine.Lib.GoMap

/-!
# Files with several names in an archive

`tarAppender.addTarFile` of `pkg/archive/archive.go` with its map `SeenFiles`: the first name of a regular file
with several links is written as a file, and the names after it as hard links to the first.

The map is keyed by the inode alone, and an inode is unique on one device only. So a hard link denotes the file it
was made for as long as the files of one inode are on one device, and only then (`addTarFile_links_iff`). Errors
of `Readlink`, of the tar writer and of copying the data are left out.
-/

namespace DockerEngine.Archive

open Filepath UnixFs List Option

/-- What `os.Lstat` tells of a file. -/
structure LstatInfo where
  obj : Obj
  dev : UInt64
  ino : UInt64
  nlink : UInt64

/-- A tree of files, which may span several devices. A device and an inode on it are one file. -/
structure Tree where
  lstat : Str → Option LstatInfo
  same : ∀ {p q fi fi'}, lstat p = some fi → lstat q = some fi' → fi.dev = fi'.dev → fi.ino = fi'.ino → fi = fi'

/-- `fi.Mode().IsRegular() && nlink > 1`, with the link count cut to 32 bits. -/
def LstatInfo.linked (fi : LstatInfo) : Bool := headerType fi.obj.body = .reg && 1 < fi.nlink.toUInt32

/-- The file of a call with the name it is added under. -/
structure Added where
  name : Str
  fi : LstatInfo

/-- The name in the header. -/
def Added.hdrName (f : Added) : Str := canonicalTarName f.name (f.fi.obj.body = .dir)

/-- A hard link to `oldpath`. No data follows it. -/
def Added.link (f : Added) (oldpath : Str) : Entry :=
  ⟨{ fileHeader f.hdrName f.fi.obj with typeflag := .link, linkname := oldpath, size := 0 }, []⟩

/-- The entries of an archive with the files they were written for, the last one first. -/
abbrev Written : Type := List (Added × Entry)

/-- A `tarAppender`. -/
structure TarAppender where
  written : Written
  seenFiles : GoMap UInt64 Str

/-- `addTarFile` from the header on. -/
def TarAppender.add (ta : TarAppender) (f : Added) : TarAppender :=
  let file := (f, tarEntry f.name f.fi.obj)
  if f.fi.linked then
    match ta.seenFiles.get f.fi.ino with
    | some oldpath => { ta with written := (f, f.link oldpath) :: ta.written }
    | none => ⟨file :: ta.written, ta.seenFiles.set f.fi.ino f.hdrName⟩
  else { ta with written := file :: ta.written }

/-- `ta.addTarFile(path, name)`. -/
def TarAppender.addTarFile (tree : Tree) (ta : TarAppender) (call : Str × Str) : Option TarAppender :=
  (tree.lstat call.1).map fun fi => ta.add ⟨call.2, fi⟩

/-- Calls of one appender. -/
def addTarFiles (tree : Tree) (calls : List (Str × Str)) : Option TarAppender :=
  calls.foldlM (TarAppender.addTarFile tree) ⟨[], .empty⟩

/-! ## What is claimed of the archive -/

/-- Every hard link names a regular file written before it, which is the linked file. -/
def LinksSame : Written → Prop
  | [] => True
  | (f, e) :: rest => (e.hdr.typeflag = .link → ∃ x ∈ rest, x.2.hdr.typeflag = .reg ∧
      x.2.hdr.name = e.hdr.linkname ∧ x.1.fi.dev = f.fi.dev ∧ x.1.fi.ino = f.fi.ino) ∧ LinksSame rest

/-- What is at a path when the archive is extracted: the entry that it was created from. -/
def extract : Written → Str → Option Entry
  | [], _ => none
  | (_, e) :: rest, p =>
    if p = clean e.hdr.name then if e.hdr.typeflag = .link then extract rest (clean e.hdr.linkname) else some e
    else extract rest p

/-- Every path gets the file that was added under its name. -/
def GivesBack (w : Written) : Prop := ∀ x ∈ w, ∃ name, extract w (clean x.1.hdrName) = some (tarEntry name x.1.fi.obj)

/-- No path is added twice. -/
def Distinct (w : Written) : Prop := (w.map fun x => clean x.1.hdrName).Nodup

/-- Two files with several links and one inode are on one device. -/
def OnOneDev (x y : Added × Entry) : Prop :=
  x.1.fi.linked → y.1.fi.linked → x.1.fi.ino = y.1.fi.ino → x.1.fi.dev = y.1.fi.dev

def SameDev (w : Written) : Prop := w.Pairwise OnOneDev

instance : Std.Symm OnOneDev := ⟨fun _ _ h hy hx hino => (h hx hy hino.symm).symm⟩

/-! ## What the appender writes -/

/-- The first of the files with several links and this inode. -/
def first (ino : UInt64) : Written → Option Added
  | [] => none
  | (f, _) :: rest => (first ino rest).or (if f.fi.linked ∧ f.fi.ino = ino then some f else none)

/-- A file whose inode was seen before is a hard link to the first one, every other an entry of its own. -/
def Built : Written → Prop
  | [] => True
  | (f, e) :: rest => Built rest ∧
    ((∃ g, f.fi.linked = true ∧ first f.fi.ino rest = some g ∧ e = f.link g.hdrName) ∨
      (f.fi.linked = true → first f.fi.ino rest = none) ∧ e = tarEntry f.name f.fi.obj)

/-- One device and inode are one file. -/
def OneFile (w : Written) : Prop :=
  ∀ x ∈ w, ∀ y ∈ w, x.1.fi.dev = y.1.fi.dev → x.1.fi.ino = y.1.fi.ino → x.1.fi = y.1.fi

section Written

variable {w : Written} {f g : Added} {e : Entry} {ino : UInt64}

theorem first_isSome {x : Added × Entry} (hx : x ∈ w) (hlinked : x.1.fi.linked) :
    first x.1.fi.ino w ≠ none := by
  induction w with
  | nil => cases hx
  | cons y w ih =>
    rw [first, ne_eq, or_eq_none_iff, not_and]
    intro hnone
    rcases mem_cons.mp hx with rfl | hx
    · simp [hlinked]
    · exact absurd hnone (ih hx)

/-- The first file is written as a regular one. -/
theorem Built.first (h : Built w) (hg : first ino w = some g) :
    (g, tarEntry g.name g.fi.obj) ∈ w ∧ g.fi.linked ∧ g.fi.ino = ino := by
  induction w with
  | nil => cases hg
  | cons y w ih =>
    obtain ⟨f, e⟩ := y
    obtain ⟨hw, he⟩ := h
    rw [Archive.first, or_eq_some_iff] at hg
    rcases hg with hg | ⟨hnone, hg⟩
    · exact ⟨mem_cons_of_mem _ (ih hw hg).1, (ih hw hg).2⟩
    obtain ⟨⟨hlinked, rfl⟩, ⟨⟩⟩ := ite_none_right_eq_some.mp hg
    rcases he with ⟨g, -, hsome, -⟩ | ⟨-, rfl⟩
    · rw [hnone] at hsome
      cases hsome
    · exact ⟨mem_cons_self, hlinked, rfl⟩

/-- Hard links denote the same file if and only if the files of one inode are on one device. The induction is on
the entries: a new link is right if the file is on the device of the ones before it. -/
theorem Built.linksSame_iff (h : Built w) (hone : OneFile w) : LinksSame w ↔ SameDev w := by
  induction w with
  | nil => exact iff_of_true trivial .nil
  | cons y w ih =>
    obtain ⟨f, e⟩ := y
    have hone' : OneFile w := fun x hx y hy => hone x (by simp [hx]) y (by simp [hy])
    rw [LinksSame, SameDev, pairwise_cons, ← SameDev, ih h.1 hone', and_congr_left_iff]
    intro hdev
    rcases h.2 with ⟨g, hlinked, hfirst, rfl⟩ | ⟨hnone, rfl⟩
    · obtain ⟨hg, hglinked, hino⟩ := h.1.first hfirst
      refine ⟨fun hlink y hy _ hylinked hyino => ?_, fun hall _ => ?_⟩
      · obtain ⟨x, hx, -, -, hxdev, hxino⟩ := hlink rfl
        have hfi := hone x (by simp [hx]) _ mem_cons_self hxdev hxino
        have hxy : OnOneDev x y := List.Pairwise.forall_of_forall (fun _ _ _ _ _ => rfl) hdev hx hy
        exact hxdev ▸ hxy (hfi ▸ hlinked) hylinked (hxino.trans hyino)
      · have hreg := of_decide_eq_true (Bool.and_eq_true_iff.mp hglinked).1
        exact ⟨_, hg, hreg, rfl, (hall _ hg hlinked hglinked hino.symm).symm, hino⟩
    · refine iff_of_true (fun hlink => absurd hlink (headerType_ne_link _)) fun y hy hlinked hylinked hino => ?_
      exact absurd (hino ▸ hnone hlinked) (first_isSome hy hylinked)

/-- Extraction follows a link to the file that was written first, which is the same one. -/
theorem Built.givesBack (h : Built w) (hone : OneFile w) (hdev : SameDev w) (hnames : Distinct w) : GivesBack w := by
  induction w with
  | nil => exact nofun
  | cons y w ih =>
    obtain ⟨f, e⟩ := y
    have hone' : OneFile w := fun x hx y hy => hone x (by simp [hx]) y (by simp [hy])
    rw [SameDev, pairwise_cons] at hdev
    rw [Distinct, map_cons, nodup_cons] at hnames
    have hold := ih h.1 hone' hdev.2 hnames.2
    have hname : e.hdr.name = f.hdrName := by
      rcases h.2 with ⟨g, -, -, rfl⟩ | ⟨-, rfl⟩ <;> rfl
    intro x hx
    rw [extract, hname]
    rcases mem_cons.mp hx with rfl | hx
    · rw [if_pos rfl]
      rcases h.2 with ⟨g, hlinked, hfirst, rfl⟩ | ⟨-, rfl⟩
      · obtain ⟨hg, hglinked, hino⟩ := h.1.first hfirst
        have hsame := hone _ mem_cons_self _ (mem_cons_of_mem _ hg) (hdev.1 _ hg hlinked hglinked hino.symm) hino.symm
        obtain ⟨name, hat⟩ := hold _ hg
        exact ⟨name, by rw [hsame]; exact hat⟩
      · exact ⟨f.name, if_neg (headerType_ne_link _)⟩
    · have hne : clean x.1.hdrName ≠ clean f.hdrName := fun heq => hnames.1 (heq ▸ mem_map_of_mem hx)
      rw [if_neg hne]
      exact hold x hx

end Written

/-- What holds of an appender: `SeenFiles` has the first name of each inode, and the entries are built with it. -/
structure Sound (tree : Tree) (ta : TarAppender) : Prop where
  seen : ∀ ino, ta.seenFiles.get ino = (first ino ta.written).map Added.hdrName
  built : Built ta.written
  files : ∀ x ∈ ta.written, ∃ path, tree.lstat path = some x.1.fi

theorem Sound.add {tree : Tree} {ta : TarAppender} (h : Sound tree ta) {path : Str} {f : Added}
    (hf : tree.lstat path = some f.fi) : Sound tree (ta.add f) := by
  have hfiles : ∀ e, ∀ x ∈ (f, e) :: ta.written, ∃ path, tree.lstat path = some x.1.fi := fun e =>
    forall_mem_cons.mpr ⟨⟨path, hf⟩, h.files⟩
  unfold TarAppender.add
  split
  next hlinked =>
    split
    next oldpath hget =>
      rw [h.seen, map_eq_some_iff] at hget
      obtain ⟨g, hg, rfl⟩ := hget
      refine ⟨fun ino => ?_, ⟨h.built, .inl ⟨g, hlinked, hg, rfl⟩⟩, hfiles _⟩
      rw [first, h.seen]
      by_cases hino : f.fi.ino = ino
      · subst hino
        simp [hg]
      · simp [hino]
    next hget =>
      rw [h.seen, map_eq_none_iff] at hget
      refine ⟨fun ino => ?_, ⟨h.built, .inr ⟨fun _ => hget, rfl⟩⟩, hfiles _⟩
      rw [first]
      by_cases hino : f.fi.ino = ino
      · subst hino
        simp [hget, hlinked]
      · rw [GoMap.get_set_ne _ (Ne.symm hino), h.seen]
        simp [hino]
  next hlinked =>
    refine ⟨fun ino => ?_, ⟨h.built, .inr ⟨fun hl => absurd hl hlinked, rfl⟩⟩, hfiles _⟩
    rw [first, h.seen]
    simp [hlinked]

/-- Calls that succeed keep it. -/
theorem Sound.run {tree : Tree} {calls : List (Str × Str)} {ta ta' : TarAppender} (h : Sound tree ta)
    (hrun : calls.foldlM (TarAppender.addTarFile tree) ta = some ta') : Sound tree ta' := by
  induction calls generalizing ta with
  | nil =>
    cases hrun
    exact h
  | cons call calls ih =>
    rw [foldlM_cons] at hrun
    obtain ⟨ta₁, hcall, hrun⟩ := bind_eq_some_iff.mp hrun
    obtain ⟨fi, hfi, rfl⟩ := map_eq_some_iff.mp hcall
    exact ih (h.add hfi) hrun

/-- **When hard links denote the same file**: if and only if the files with several links that have one inode are
on one device. Then, for paths that were added once, extraction gives each path its file. -/
theorem addTarFile_links_iff {tree : Tree} {calls : List (Str × Str)} {ta : TarAppender}
    (h : addTarFiles tree calls = some ta) :
    (LinksSame ta.written ↔ SameDev ta.written) ∧
      (Distinct ta.written → SameDev ta.written → GivesBack ta.written) := by
  have hnew : Sound tree ⟨[], .empty⟩ := ⟨fun _ => rfl, trivial, forall_mem_nil _⟩
  have hsound := hnew.run h
  have hone : OneFile ta.written := by
    intro x hx y hy
    obtain ⟨p, hp⟩ := hsound.files x hx
    obtain ⟨q, hq⟩ := hsound.files y hy
    exact tree.same hp hq
  exact ⟨hsound.built.linksSame_iff hone, fun hnames hdev => hsound.built.givesBack hone hdev hnames⟩

/-! ### Two names of one inode -/

/-- The files `/a` and `/b` with inode 7, on the given devices and with the given contents. -/
def twoFiles (dev dev' : UInt64) (content content' : Bytes) (h : dev = dev' → content = content') : Tree where
  lstat p :=
    if p = "/a".toList then some ⟨⟨.file content, 0, 0, 0, ⟨0, 0⟩, []⟩, dev, 7, 2⟩
    else if p = "/b".toList then some ⟨⟨.file content', 0, 0, 0, ⟨0, 0⟩, []⟩, dev', 7, 2⟩ else none
  same := by
    intro p q fi fi' hp hq hdev _
    split_ifs at hp hq <;> cases hp <;> cases hq <;> simp_all

def twoCalls : List (Str × Str) := [("/a".toList, ['a']), ("/b".toList, ['b'])]

theorem addTarFile_links_one_device :
    ∃ ta, addTarFiles (twoFiles 1 1 [97] [97] (by decide)) twoCalls = some ta ∧ GivesBack ta.written :=
  ⟨_, rfl, (@addTarFile_links_iff (twoFiles 1 1 [97] [97] (by decide)) twoCalls _ rfl).2
    (by unfold Distinct; decide) (by unfold SameDev OnOneDev; decide)⟩

/-- A file of another device is written as a link to the first and gets its content. -/
theorem addTarFile_other_device : ∃ ta, addTarFiles (twoFiles 1 2 [97] [98] (by decide)) twoCalls = some ta ∧
    ¬ LinksSame ta.written ∧ (extract ta.written ['b']).map Entry.data = some [97] := by
  refine ⟨_, rfl, fun h => ?_, by decide⟩
  obtain ⟨x, hx, -, -, hdev, -⟩ := h.1 rfl
  cases mem_singleton.mp hx
  exact absurd hdev (by decide)

end DockerEngine.Archive
