import DockerEngine.Lib.UnixFs

/-!
# Unpacking archives: `UnpackLayer`, `Unpack`, `createTarFile`

The extraction side of `pkg/archive`: `UnpackLayer` (`diff.go`), which applies a layer with its
whiteouts, `Unpack` (`archive.go`), and `createTarFile`, which both of them call for one entry.

The two loops are written over `Calls σ`, the file-system calls they make, over any state `σ`. What
they do to paths is decided by their own text and not by a file system, so it can be stated for
every behaviour of the calls. `Fs.calls` closes the interface with the Unix file system: there
`createTarFile` is the source's function over the kernel's calls.

An archive is the list of its entries, headers with their data; errors of the tar reader itself,
decompression and the Windows branches are not modelled. A `defer` of the source runs when the
function returns, on every way out, and stands here as `Proc.andFinally`.
-/

namespace DockerEngine.Archive

open Filepath Resolve UnixFs Fs Proc

/-! ## Headers, errors, calls -/

/-- The type of a tar entry. -/
inductive Typeflag where
  | reg | regA | link | symlink | char | block | dir | fifo | xGlobalHeader
  | other (flag : UInt8)
  deriving DecidableEq, Repr

/-- A tar header: the fields extraction reads. A time is `none` where Go has the zero time. -/
structure Header where
  name : Str
  typeflag : Typeflag
  mode : Nat
  uid : Nat
  gid : Nat
  size : Nat
  modTime : Option Time
  accessTime : Option Time
  linkname : Str
  xattrs : List (Str × Bytes)
  devmajor : Nat
  devminor : Nat
  deriving DecidableEq, Repr

/-- One entry of an archive. -/
structure Entry where
  hdr : Header
  data : Bytes
  deriving DecidableEq, Repr

/-- The errors of extraction. -/
inductive Err where
  /-- An error of a system call. -/
  | os (e : Errno)
  /-- `breakoutError`: "%q is outside of %q". -/
  | outside (name dest : Str)
  /-- `breakoutError`: "invalid hardlink %q -> %q". -/
  | invalidHardlink (targetPath linkname : Str)
  /-- `breakoutError`: "invalid symlink %q -> %q". -/
  | invalidSymlink (path linkname : Str)
  /-- "Unhandled tar header type %d\n". -/
  | unhandledType (flag : Typeflag)
  /-- "Invalid aufs hardlink". -/
  | invalidAufsHardlink
  /-- "cannot overwrite directory %q with non-directory %q". -/
  | overwriteDir (path dest : Str)
  /-- "cannot overwrite non-directory %q with directory %q". -/
  | overwriteNonDir (path dest : Str)
  /-- The error of `filepath.Rel`. -/
  | rel (basepath targ : Str)
  deriving DecidableEq, Repr

/-- The file-system calls of `UnpackLayer` and `Unpack`. -/
structure Calls (σ : Type) where
  /-- `os.Lstat`. -/
  lstat : Str → σ → Except Errno Kind
  /-- `system.MkdirAll`. -/
  mkdirAll : Str → Perm → Proc σ Err Unit
  /-- `os.RemoveAll`. -/
  removeAll : Str → Proc σ Err Unit
  /-- `createTarFile(path, extractDir, hdr, reader, Lchown, chownOpts)`. -/
  createTarFile : Str → Str → Header → Bytes → Bool → Option (Nat × Nat) → Proc σ Err Unit
  /-- `syscall.UtimesNano`, with the access and the modification time. -/
  utimesNano : Str → Option Time → Option Time → Proc σ Err Unit
  /-- `ioutil.TempDir("", "dockerplnk")`. -/
  tempDir : Proc σ Err Str
  /-- `createTarFile` for a file inside the temporary directory. -/
  createPlnkFile : Str → Str → Header → Bytes → Bool → Option (Nat × Nat) → Proc σ Err Unit
  /-- `os.Open` of a file inside the temporary directory, read to its end. -/
  openPlnkFile : Str → Proc σ Err Bytes
  /-- `os.RemoveAll` of the temporary directory. -/
  removeTempDir : Str → Proc σ Err Unit

section Loops

variable {σ : Type} (c : Calls σ) (dest : Str)

/-! ## What both loops do with an entry -/

/-- An entry that is not the root directory gets its parent directory, if that is missing. -/
def ensureParent (name : Str) (perm : Perm) : Proc σ Err Unit :=
  if hasSuffix name ['/'] then pure ()
  else do
    let parentPath := join [dest, dir name]
    match ← read (c.lstat parentPath) with
    | .error .enoent => c.mkdirAll parentPath perm
    | _ => pure ()

/-- The path of an entry, with the check that it does not lead out of the destination. -/
def entryPath (name : Str) : Proc σ Err Str :=
  let path := join [dest, name]
  match rel dest path with
  | none => fail (.rel dest path)
  | some r => if hasPrefix r "../".toList then fail (.outside name dest) else pure path

/-- The loop over the directories at the end: their modification times, which the files created in
them have changed. -/
def setTimes (dirs : List Header) : Proc σ Err Unit :=
  dirs.forM fun hdr => c.utimesNano (join [dest, hdr.name]) hdr.accessTime hdr.modTime

/-! ## `UnpackLayer` -/

/-- The variables of `UnpackLayer`. -/
structure LayerState where
  size : Nat
  dirs : List Header
  aufsTempdir : Str
  aufsHardlinks : List (Str × Header)

section

variable (hdr : Header) (data : Bytes) (st : LayerState)

/-- The header and the data of the file to create. A hard link into `.wh..wh.plnk` becomes the file
that was extracted for it. -/
def layerSource : Proc σ Err (Header × Bytes) :=
  if hdr.typeflag = .link ∧ hasPrefix (clean hdr.linkname) ".wh..wh.plnk".toList then
    let linkBasename := base hdr.linkname
    match st.aufsHardlinks.lookup linkBasename with
    | none => fail .invalidAufsHardlink
    | some srcHdr => do
      let tmpFile ← c.openPlnkFile (join [st.aufsTempdir, linkBasename])
      pure (srcHdr, tmpFile)
  else pure (hdr, data)

/-- What is at the path is removed, unless a directory meets a directory. -/
def clearPath (path : Str) (hdr : Header) : Proc σ Err Unit := do
  match ← read (c.lstat path) with
  | .ok fi => if fi = .dir ∧ hdr.typeflag = .dir then pure () else c.removeAll path
  | .error _ => pure ()

/-- The state after an entry was created: a directory is remembered for the end. -/
def LayerState.withDir (hdr : Header) : LayerState :=
  if hdr.typeflag = .dir then { st with dirs := st.dirs ++ [hdr] } else st

/-- An entry that is no whiteout: the path is cleared and the file created. -/
def layerFile (path : Str) (hdr : Header) (data : Bytes) (st : LayerState) : Proc σ Err LayerState := do
  clearPath c path hdr
  let src ← layerSource c hdr data st
  c.createTarFile path dest src.1 src.2 true none
  pure (st.withDir hdr)

/-- An entry that is no AUFS metadata: a whiteout removes what it names, any other is created. -/
def layerEntry : Proc σ Err LayerState := do
  let path ← entryPath dest hdr.name
  let b := base path
  if hasPrefix b ".wh.".toList then
    let originalBase := b.drop 4
    c.removeAll (join [dir path, originalBase])
    pure st
  else layerFile c dest path hdr data st

/-- The header with its name cleaned. -/
def Header.cleaned : Header := { hdr with name := clean hdr.name }

/-- A regular file of `.wh..wh.plnk` is kept in a temporary directory. The directory is made for the
first of them and removed when the function returns, after the rounds that are left (`next`). -/
def keepPlnkFile (next : LayerState → Proc σ Err Nat) : Proc σ Err Nat :=
  let basename := base hdr.name
  let st := { st with aufsHardlinks := (basename, hdr) :: st.aufsHardlinks }
  if st.aufsTempdir = [] then do
    let tmp ← c.tempDir
    andFinally
      (do
        c.createPlnkFile (join [tmp, basename]) dest hdr data true none
        next { st with aufsTempdir := tmp })
      (c.removeTempDir tmp)
  else do
    c.createPlnkFile (join [st.aufsTempdir, basename]) dest hdr data true none
    next st

/-- A round of `UnpackLayer` once the parent directory is there. AUFS metadata is skipped, but for
the files hard links are made to. -/
def layerRound (next : LayerState → Proc σ Err Nat) : Proc σ Err Nat :=
  if hasPrefix hdr.name ".wh..wh.".toList then
    if hasPrefix hdr.name ".wh..wh.plnk".toList ∧ hdr.typeflag = .reg then
      keepPlnkFile c dest hdr data st next
    else next st
  else do
    let st ← layerEntry c dest hdr data st
    next st

end

/-- The loop of `UnpackLayer` over the entries, and what follows it. -/
def unpackLayerLoop : List Entry → LayerState → Proc σ Err Nat
  | [], st => do
    setTimes c dest st.dirs
    pure st.size
  | e :: es, st => do
    let hdr := e.hdr.cleaned
    ensureParent c dest hdr.name 0o600
    layerRound c dest hdr e.data { st with size := st.size + hdr.size } (unpackLayerLoop es)

/-- `UnpackLayer`. -/
def unpackLayer (layer : List Entry) : Proc σ Err Nat := unpackLayerLoop c dest layer ⟨0, [], [], []⟩

/-! ## `Unpack` -/

/-- The options `Unpack` reads. -/
structure TarOptions where
  excludePatterns : List Str
  noLchown : Bool
  chownOpts : Option (Nat × Nat)
  noOverwriteDirNonDir : Bool

/-- The loop over the exclude patterns: the name starts with one of them. -/
def TarOptions.excludes (options : TarOptions) (name : Str) : Bool :=
  options.excludePatterns.any fun exclude => hasPrefix name exclude

variable (options : TarOptions)

/-- The end of one round of `Unpack`: the file is created and a directory is remembered. -/
def unpackFile (path : Str) (hdr : Header) (data : Bytes) (dirs : List Header) : Proc σ Err (List Header) := do
  c.createTarFile path dest hdr data (!options.noLchown) options.chownOpts
  pure (if hdr.typeflag = .dir then dirs ++ [hdr] else dirs)

/-- One round of `Unpack` once the parent directory is there. -/
def unpackEntry (hdr : Header) (data : Bytes) (dirs : List Header) : Proc σ Err (List Header) := do
  let path ← entryPath dest hdr.name
  match ← read (c.lstat path) with
  | .ok fi =>
    if options.noOverwriteDirNonDir ∧ fi = .dir ∧ hdr.typeflag ≠ .dir then
      fail (.overwriteDir path dest)
    else if options.noOverwriteDirNonDir ∧ fi ≠ .dir ∧ hdr.typeflag = .dir then
      fail (.overwriteNonDir path dest)
    else if fi = .dir ∧ hdr.name = dot then pure dirs
    else if fi = .dir ∧ hdr.typeflag = .dir then unpackFile c dest options path hdr data dirs
    else do
      c.removeAll path
      unpackFile c dest options path hdr data dirs
  | .error _ => unpackFile c dest options path hdr data dirs

/-- The loop of `Unpack` over the entries, and what follows it. -/
def unpackLoop : List Entry → List Header → Proc σ Err Unit
  | [], dirs => setTimes c dest dirs
  | e :: es, dirs =>
    let hdr := e.hdr.cleaned
    if options.excludes hdr.name then unpackLoop es dirs
    else do
      ensureParent c dest hdr.name 0o777
      let dirs ← unpackEntry c dest options hdr e.data dirs
      unpackLoop es dirs

/-- `Unpack`. -/
def unpack (archive : List Entry) : Proc σ Err Unit := unpackLoop c dest options archive []

end Loops

/-! ## `createTarFile` on the Unix file system -/

/-- A system call, with its error as an error of extraction. -/
def sys {α : Type} (m : Proc Fs Errno α) : Proc Fs Err α := m.mapError Err.os

/-- The file type bits of device files. -/
def sIFBLK : Nat := 0o060000
def sIFCHR : Nat := 0o020000
def sIFIFO : Nat := 0o010000

/-- `system.Mkdev`. -/
def mkdev (major minor : Nat) : Nat := ((minor &&& 0xfff00) <<< 12) ||| ((major &&& 0xfff) <<< 8) ||| (minor &&& 0xff)

section

variable (hdr : Header) (path : Str)

/-- `handleTarTypeBlockCharFifo`, with the type bits of the kind of device. -/
def handleTarTypeBlockCharFifo (typeBits : Nat) : Proc Fs Err Unit :=
  sys (mknod path ((hdr.mode &&& 0o7777) ||| typeBits) (mkdev hdr.devmajor hdr.devminor))

/-- The switch of `createTarFile` over the type: the object itself. It returns whether the
attributes are to be set. -/
def createTarObject (extractDir : Str) (hdr : Header) (data : Bytes) : Proc Fs Err Bool :=
  match hdr.typeflag with
  | .dir => do
    match ← read (lstat path) with
    | .ok .dir => pure true
    | _ => do
      sys (mkdir path (Fin.ofNat 4096 hdr.mode))
      pure true
  | .reg | .regA => do
    sys (writeFile path (Fin.ofNat 4096 hdr.mode) data)
    pure true
  | .block => do
    handleTarTypeBlockCharFifo hdr path sIFBLK
    pure true
  | .char => do
    handleTarTypeBlockCharFifo hdr path sIFCHR
    pure true
  | .fifo => do
    handleTarTypeBlockCharFifo hdr path sIFIFO
    pure true
  | .link =>
    let targetPath := join [extractDir, hdr.linkname]
    if hasPrefix targetPath extractDir then do
      sys (link targetPath path)
      pure true
    else fail (.invalidHardlink targetPath hdr.linkname)
  | .symlink =>
    let targetPath := join [dir path, hdr.linkname]
    if hasPrefix targetPath extractDir then do
      sys (symlink hdr.linkname path)
      pure true
    else fail (.invalidSymlink path hdr.linkname)
  | .xGlobalHeader => pure false
  | .other flag => fail (.unhandledType (.other flag))

/-- The test both for the mode and for the times of a hard link: the link name, read from the
process's own directory, names something that is no symbolic link. -/
def linknameIsNoSymlink (fs : Fs) : Bool :=
  match lstat hdr.linkname fs with
  | .ok (.symlink _) => false
  | .ok _ => true
  | .error _ => false

/-- `handleLChmod`. -/
def handleLChmod : Proc Fs Err Unit :=
  if hdr.typeflag = .link then do
    if ← read (linknameIsNoSymlink hdr) then sys (chmod path hdr.mode) else pure ()
  else if hdr.typeflag ≠ .symlink then sys (chmod path hdr.mode)
  else pure ()

/-- The times of the file, set at the end of `createTarFile`. -/
def setFileTimes : Proc Fs Err Unit :=
  if hdr.typeflag = .link then do
    if ← read (linknameIsNoSymlink hdr) then sys (utimes path hdr.modTime) else pure ()
  else if hdr.typeflag ≠ .symlink then sys (utimes path hdr.modTime)
  else sys (lutimes path hdr.modTime)

/-- The attributes: owner, extended attributes, mode and times, in this order. -/
def setTarAttrs (hdr : Header) (lchown : Bool) (chownOpts : Option (Nat × Nat)) : Proc Fs Err Unit := do
  if lchown then
    let opts := chownOpts.getD (hdr.uid, hdr.gid)
    sys (Fs.lchown path opts.1 opts.2)
  else pure ()
  hdr.xattrs.forM fun x => sys (lsetxattr path x.1 x.2)
  handleLChmod hdr path
  setFileTimes hdr path

/-- What calls that set an attribute of `path` have, setting all of them has. -/
theorem setTarAttrs_of_calls {C : Proc Fs Err Unit → Prop} (hC : Compositional C)
    (hcall : ∀ m f, (∀ o, (f o).body.kind = o.body.kind) → C (sys (setAttr m path f)))
    (hdr : Header) (lchown : Bool) (opts : Option (Nat × Nat)) : C (setTarAttrs path hdr lchown opts) := by
  have hchmod : C (sys (chmod path hdr.mode)) := hcall .stat _ fun _ => rfl
  have htimes : C (sys (utimes path hdr.modTime)) := hcall .stat _ fun _ => rfl
  have hmode : C (handleLChmod hdr path) := by
    unfold handleLChmod
    split_ifs
    · exact hC.look (Bool.rec hC.skip hchmod)
    · exact hchmod
    · exact hC.skip
  have hset : C (setFileTimes hdr path) := by
    unfold setFileTimes
    split_ifs
    · exact hC.look (Bool.rec hC.skip htimes)
    · exact htimes
    · exact hcall .lstat _ fun _ => rfl
  have hxattrs := hC.forM (fun x : Str × Bytes => hcall .lstat (withXattr x.1 x.2) fun _ => rfl) hdr.xattrs
  have hattrs := hC.seq hxattrs (hC.seq hmode hset)
  unfold setTarAttrs
  split
  · refine hC.seq (hcall .lstat _ fun o => ?_) hattrs
    unfold chowned
    split <;> rfl
  · exact hattrs

/-- `createTarFile`. -/
def createTarFile (extractDir : Str) (hdr : Header) (data : Bytes) (lchown : Bool)
    (chownOpts : Option (Nat × Nat)) : Proc Fs Err Unit := do
  if ← createTarObject path extractDir hdr data then setTarAttrs path hdr lchown chownOpts
  else pure ()

/-- The content of the file a path names. -/
def readFile : Proc Fs Errno Bytes := fun fs =>
  match fs.find .stat path with
  | .error e => (.error e, fs)
  | .ok p =>
    match (fs.obj p).map Obj.body with
    | some (.file content) => (.ok content, fs)
    | _ => (.error .einval, fs)

end

/-- `ioutil.TempDir("", "dockerplnk")`, with the next inode number for the random part. -/
def tempDir : Proc Fs Errno Str := do
  let path := "/tmp/dockerplnk".toList ++ (← read fun fs : Fs => (Nat.repr fs.next).toList)
  mkdir path 0o700
  pure path

end DockerEngine.Archive

namespace DockerEngine.UnixFs

open Archive

/-- The calls of the loops on the Unix file system. -/
def Fs.calls : Calls Fs where
  lstat := lstat
  mkdirAll path perm := sys (mkdirAll path perm)
  removeAll path := sys (removeAll path)
  createTarFile := createTarFile
  utimesNano path _ mtime := sys (utimes path mtime)
  tempDir := sys tempDir
  createPlnkFile := createTarFile
  openPlnkFile path := sys (readFile path)
  removeTempDir path := sys (removeAll path)

end DockerEngine.UnixFs
