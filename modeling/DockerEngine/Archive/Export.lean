import DockerEngine.Archive.Changes
import DockerEngine.Archive.Unpack

/-!
# From changes to tar entries

`ExportChanges` of `pkg/archive/changes.go` and `addTarFile` of `archive.go`: the changes are sorted
by path, a deletion becomes a whiteout and every other change the entry of the file as it is in the
directory. `infoOf` is what `walkchunk` records of a file when a directory is collected.

Of the tar format the model keeps what a reader gets back: whole seconds in the modification time, no
access time, and the extended attributes. Modification times are taken to lie in the range of the
header's field. Files with several names are not modelled, so no entry is a hard link.
-/

namespace DockerEngine.Archive

open Filepath UnixFs

/-! ## What is recorded of a file -/

/-- The file type bits of a mode. -/
def sIFREG : Nat := 0o100000
def sIFLNK : Nat := 0o120000
def sIFMT : Nat := 0o170000

def typeBits : Body → Nat
  | .dir => sIFDIR
  | .file _ => sIFREG
  | .symlink _ => sIFLNK
  | .special mode _ => mode &&& sIFMT

/-- `st_mode`. -/
def statMode (o : Obj) : Nat := typeBits o.body + o.perm.val

/-- `st_size`. The size of a directory is compared nowhere. -/
def statSize : Body → Nat
  | .dir => 4096
  | .file content => content.length
  | .symlink target => (target.map Char.utf8Size).sum
  | .special _ _ => 0

def statRdev : Body → Nat
  | .special _ rdev => rdev
  | _ => 0

/-- The file info collected from a file. -/
def infoOf (o : Obj) : Info where
  stat := ⟨statMode o, o.uid, o.gid, statRdev o.body, statSize o.body, o.mtime⟩
  capability := (o.xattrs.lookup Fs.capabilityKey).getD []

/-! ## Entries -/

/-- The time a tar header keeps: whole seconds. -/
def tarTime (t : Time) : Time := ⟨t.sec, 0⟩

/-- `canonicalTarName`: the name of a directory ends in a separator. -/
def canonicalTarName (name : Str) (isDir : Bool) : Str :=
  if isDir && !hasSuffix name ['/'] then name ++ ['/'] else name

/-- The type of the header `tar.FileInfoHeader` makes. -/
def headerType : Body → Typeflag
  | .dir => .dir
  | .file _ => .reg
  | .symlink _ => .symlink
  | .special mode _ =>
    if mode &&& sIFMT = sIFBLK then .block else if mode &&& sIFMT = sIFCHR then .char else .fifo

theorem headerType_ne_link (b : Body) : headerType b ≠ .link := by
  unfold headerType
  split <;> try simp
  split <;> [simp; split <;> simp]

/-- `major` and `minor` of a device number. -/
def major (device : Nat) : Nat := (device >>> 8) &&& 0xfff
def minor (device : Nat) : Nat := (device &&& 0xff) ||| ((device >>> 12) &&& 0xfff00)

/-- The header `addTarFile` writes for a file, as a reader gets it back. -/
def fileHeader (name : Str) (o : Obj) : Header where
  name := name
  typeflag := headerType o.body
  mode := statMode o
  uid := o.uid
  gid := o.gid
  size := match o.body with | .file content => content.length | _ => 0
  modTime := some (tarTime o.mtime)
  accessTime := none
  linkname := match o.body with | .symlink target => target | _ => []
  xattrs := match o.xattrs.lookup Fs.capabilityKey with
    | some v => [(Fs.capabilityKey, v)]
    | none => []
  devmajor := major (statRdev o.body)
  devminor := minor (statRdev o.body)

/-- The data `addTarFile` writes behind the header. -/
def fileData (o : Obj) : Bytes :=
  match o.body with
  | .file content => content
  | _ => []

/-- The entry of a file under a name. -/
def tarEntry (name : Str) (o : Obj) : Entry :=
  ⟨fileHeader (canonicalTarName name (o.body = .dir)) o, fileData o⟩

/-- `addTarFile`: nothing is written for a file that is not there. -/
def addTarFile (dir : FileMap) (c : Change) : Option Entry := (dir c.pos).map (tarEntry (c.path.drop 1))

/-- The prefix of whiteouts. -/
def whPrefix : Str := ".wh.".toList

/-- The whiteout of a deletion. Its header leaves the type zero. -/
def whiteout (now : Time) (c : Change) : Entry where
  hdr := {
    name := (join [dir c.path, whPrefix ++ base c.path]).drop 1
    typeflag := .regA
    mode := 0, uid := 0, gid := 0, size := 0
    modTime := some (tarTime now), accessTime := none
    linkname := [], xattrs := [], devmajor := 0, devminor := 0 }
  data := []

/-- `sort.Sort(changesByPath(changes))`. -/
def sortByPath (cs : List Change) : List Change := cs.insertionSort fun a b => a.path ≤ b.path

/-- The entry of one change. -/
def exportChange (dir : FileMap) (now : Time) (c : Change) : Option Entry :=
  if c.kind = .delete then some (whiteout now c) else addTarFile dir c

/-- `ExportChanges`. -/
def exportChanges (dir : FileMap) (now : Time) (cs : List Change) : List Entry :=
  (sortByPath cs).filterMap (exportChange dir now)

/-! ## The order of the entries -/

theorem mem_sortByPath {cs : List Change} {c : Change} : c ∈ sortByPath cs ↔ c ∈ cs := List.mem_insertionSort _

theorem sortByPath_pairwise (cs : List Change) : (sortByPath cs).Pairwise fun a b => a.path ≤ b.path := by
  have htotal : Std.Total fun a b : Change => a.path ≤ b.path := ⟨fun a b => le_total _ _⟩
  have htrans : IsTrans Change fun a b => a.path ≤ b.path := ⟨fun a b c => le_trans⟩
  exact List.pairwise_insertionSort _ cs

/-- A directory's change comes before the changes below it. -/
theorem not_prefix_of_path_le {c c' : Change} (h : c.path ≤ c'.path)
    (hc : AllProper c.pos) (hne : c'.pos ≠ c.pos) : ¬ c'.pos <+: c.pos := by
  intro hpre
  exact absurd h (not_le.mpr (absPath_lt hpre hne fun n hn => (hc n hn).elem))

end DockerEngine.Archive
