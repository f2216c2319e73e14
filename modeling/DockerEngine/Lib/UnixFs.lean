import DockerEngine.Lib.Bytes
import DockerEngine.Lib.Proc
import DockerEngine.Lib.Resolve

/-!
# A Unix file system

Names lead to inodes and inodes hold objects, so that two names of one file share its content and
its attributes. A state maps each position (the names from the root down) to an inode number; every
number in use is below `next`, which is part of the state type, so a new inode is shared with nothing.

The calls take paths. Each of them resolves its path in the mode it has in the kernel and then acts
at the position found: `mkdir`, `symlink`, `mknod`, `link` and `removeAll` act on the name itself,
`lstat`, `lchown`, `lsetxattr` and `lutimes` on an object without following a link in the last
place, `stat`, `chmod`, `utimes` and `writeFile` through it. `removeAll`, `mkdirAll` and `writeFile`
(open, copy, close) are the library functions built on them.

`Shows fs T` reads a state as a map from positions to objects in which no two names share an inode.
The calls are specified against it: on a path through real directories each one changes the map at
the path alone. Permission checks, timestamps the kernel sets by itself, the umask and disk errors
are not modelled.
-/

namespace DockerEngine.UnixFs

open Filepath Resolve List Option

/-- The content of a file. -/
abbrev Bytes := List UInt8

/-- The permission bits, with set-user-id, set-group-id and the sticky bit. -/
abbrev Perm := Fin 4096

instance neZeroPerm : NeZero 4096 := ⟨by decide⟩

/-- A timestamp. -/
structure Time where
  sec : Nat
  nsec : Nat
  deriving DecidableEq, Repr

/-- What an object is. -/
inductive Body where
  | dir
  | file (content : Bytes)
  | symlink (target : Str)
  | special (mode rdev : Nat)
  deriving DecidableEq, Repr

/-- An object with its attributes. -/
@[ext] structure Obj where
  body : Body
  perm : Perm
  uid : Nat
  gid : Nat
  mtime : Time
  xattrs : List (Str × Bytes)
  deriving DecidableEq, Repr

/-- The kind resolution asks for. -/
def Body.kind : Body → Kind
  | .dir => .dir
  | .symlink t => .symlink t
  | .file _ => .other
  | .special _ _ => .other

/-- A file system: the inode each position names, the inodes, and the directory relative paths
start at. -/
structure Fs where
  names : List Str → Option Nat
  inodes : Nat → Obj
  next : Nat
  cwd : List Str
  fresh : ∀ {p i}, names p = some i → i < next

namespace Fs

section

variable (path : Str) (fs : Fs) (p : List Str)

/-- The object at a position. -/
def obj : Option Obj := (fs.names p).map fs.inodes

/-- The kind of the object at a position. -/
def kindAt : Option Kind := (fs.obj p).map (·.body.kind)

/-! ## Changes at a position -/

/-- The object at `p` and all below it are gone. -/
def removeAt : Fs where
  names q := if p <+: q then none else fs.names q
  inodes := fs.inodes
  next := fs.next
  cwd := fs.cwd
  fresh := by
    intro q i h
    split at h
    · cases h
    · exact fs.fresh h

/-- A new object at `p`. -/
def addAt (o : Obj) : Fs where
  names q := if q = p then some fs.next else fs.names q
  inodes i := if i = fs.next then o else fs.inodes i
  next := fs.next + 1
  cwd := fs.cwd
  fresh := by
    intro q i h
    split at h
    · cases h; omega
    · have := fs.fresh h; omega

/-- A second name, at `p`, for the object at `old`. -/
def linkAt (old p : List Str) : Fs where
  names q := if q = p then fs.names old else fs.names q
  inodes := fs.inodes
  next := fs.next
  cwd := fs.cwd
  fresh := by
    intro q i h
    split at h <;> exact fs.fresh h

/-- A change of the object at `p`, seen under each of its names. -/
def modifyAt (f : Obj → Obj) : Fs where
  names := fs.names
  inodes i := if fs.names p = some i then f (fs.inodes i) else fs.inodes i
  next := fs.next
  cwd := fs.cwd
  fresh := fs.fresh

/-! ## Calls -/

/-- The number of links a resolution follows before it fails with `ELOOP`. -/
def maxLinks : Nat := 40

/-- The position a path names. -/
def find (m : Mode) (path : Str) : Except Errno (List Str) :=
  if path = [] then .error .enoent
  else (resolve fs.kindAt m maxLinks (if isAbs path then [] else fs.cwd) (elems path)).map Prod.fst

/-- The kind of the object a path names. -/
def kindOf (m : Mode) (path : Str) (fs : Fs) : Except Errno Kind :=
  match fs.find m path with
  | .error e => .error e
  | .ok p =>
    match fs.kindAt p with
    | some x => .ok x
    | none => .error .enoent

/-- `lstat(2)`. -/
def lstat : Str → Fs → Except Errno Kind := kindOf .lstat

/-- `stat(2)`. -/
def stat : Str → Fs → Except Errno Kind := kindOf .stat

/-- `readlink(2)`. -/
def readlink : Except Errno Str :=
  match lstat path fs with
  | .error e => .error e
  | .ok (.symlink t) => .ok t
  | .ok _ => .error .einval

/-- A call that resolves its path and acts at the position found. -/
def onPath (m : Mode) (path : Str) (act : List Str → Fs → Except Errno Fs) : Proc Fs Errno Unit :=
  fun fs =>
    match fs.find m path with
    | .error e => (.error e, fs)
    | .ok p =>
      match act p fs with
      | .error e => (.error e, fs)
      | .ok fs' => (.ok (), fs')

/-- A new object under a name that must be free. -/
def create (o : Obj) : Proc Fs Errno Unit :=
  onPath .name path fun p fs => if (fs.obj p).isSome then .error .eexist else .ok (fs.addAt p o)

/-- A new object of the process, which runs as root. -/
def newObj (body : Body) (perm : Perm) : Obj := ⟨body, perm, 0, 0, ⟨0, 0⟩, []⟩

/-- `mkdir(2)`. -/
def mkdir (perm : Perm) : Proc Fs Errno Unit := create path (newObj .dir perm)

/-- `symlink(2)`. A link has all permission bits. -/
def symlink (target path : Str) : Proc Fs Errno Unit :=
  if target = [] then Proc.fail .enoent else create path (newObj (.symlink target) 0o777)

/-- `mknod(2)`. -/
def mknod (mode : Nat) (rdev : Nat) : Proc Fs Errno Unit :=
  create path (newObj (.special mode rdev) (Fin.ofNat 4096 mode))

/-- `link(2)`: no link in the last place of either path is followed. -/
def link (oldpath newpath : Str) : Proc Fs Errno Unit := fun fs =>
  match fs.find .lstat oldpath with
  | .error e => (.error e, fs)
  | .ok old =>
    onPath .name newpath (fun p fs =>
      if (fs.obj p).isSome then .error .eexist
      else if fs.kindAt old = some .dir then .error .eperm
      else .ok (fs.linkAt old p)) fs

/-- A change of the attributes of the object a path names. -/
def setAttr (m : Mode) (path : Str) (f : Obj → Obj) : Proc Fs Errno Unit :=
  onPath m path fun p fs => .ok (fs.modifyAt p f)

/-- The extended attribute that holds file capabilities. -/
def capabilityKey : Str := "security.capability".toList

/-- The object with a new owner. The kernel takes the set-user-id bit, the set-group-id bit of a
group-executable file and the capability from a file that changes hands. -/
def chowned (uid gid : Nat) (o : Obj) : Obj :=
  match o.body with
  | .file _ =>
    let dropped := if o.perm.val &&& 0o10 = 0 then 0o4000 else 0o6000
    { o with
      uid := uid, gid := gid
      perm := Fin.ofNat 4096 (o.perm.val - (o.perm.val &&& dropped))
      xattrs := o.xattrs.filter fun x => x.1 ≠ capabilityKey }
  | _ => { o with uid := uid, gid := gid }

/-- `lchown(2)`. -/
def lchown (uid gid : Nat) : Proc Fs Errno Unit := setAttr .lstat path (chowned uid gid)

/-- The object with an extended attribute set. -/
def withXattr (key : Str) (value : Bytes) (o : Obj) : Obj :=
  { o with xattrs := o.xattrs.filter (fun x => x.1 ≠ key) ++ [(key, value)] }

/-- `lsetxattr(2)`. -/
def lsetxattr (key : Str) (value : Bytes) : Proc Fs Errno Unit := setAttr .lstat path (withXattr key value)

/-- `chmod(2)`. -/
def chmod (mode : Nat) : Proc Fs Errno Unit := setAttr .stat path fun o => { o with perm := Fin.ofNat 4096 mode }

/-- The object with a new modification time, if one is given. -/
def withMtime (mtime : Option Time) (o : Obj) : Obj := { o with mtime := mtime.getD o.mtime }

/-- `utimensat(2)`, following a link in the last place. A time that is not given is left alone. -/
def utimes (mtime : Option Time) : Proc Fs Errno Unit := setAttr .stat path (withMtime mtime)

/-- `utimensat(2)` with `AT_SYMLINK_NOFOLLOW`. -/
def lutimes (mtime : Option Time) : Proc Fs Errno Unit := setAttr .lstat path (withMtime mtime)

/-- `os.OpenFile` with `O_CREATE|O_WRONLY`, a copy and the close. An existing file is not cut: what
is written replaces its beginning. -/
def writeFile (perm : Perm) (data : Bytes) : Proc Fs Errno Unit :=
  onPath .open path fun p fs =>
    match (fs.obj p).map Obj.body with
    | none => .ok (fs.addAt p (newObj (.file data) perm))
    | some (.file old) =>
      .ok (fs.modifyAt p fun o => { o with body := .file (data ++ old.drop data.length) })
    | some .dir => .error .eisdir
    | some (.symlink _) => .error .eloop
    | some (.special _ _) => .ok fs

/-- `os.RemoveAll`: what is not there counts as removed. -/
def removeAll : Proc Fs Errno Unit := fun fs =>
  match fs.find .name path with
  | .error .enoent => (.ok (), fs)
  | .error .enotdir => (.ok (), fs)
  | .error e => (.error e, fs)
  | .ok p => if p = [] then (.error .ebusy, fs) else (.ok (), fs.removeAt p)

/-- `os.MkdirAll` on the absolute path through the given names, the last one first. -/
def mkdirAllRev (perm : Perm) : List Str → Proc Fs Errno Unit
  | [] => pure ()
  | n :: rest => do
    let path := absPath (n :: rest).reverse
    match ← Proc.read (stat path) with
    | .ok .dir => pure ()
    | .ok _ => Proc.fail .enotdir
    | .error _ =>
      mkdirAllRev perm rest
      fun fs =>
        match mkdir path perm fs with
        | (.ok (), fs') => (.ok (), fs')
        | (.error e, fs') => if lstat path fs' = .ok .dir then (.ok (), fs') else (.error e, fs')

/-- `os.MkdirAll`. -/
def mkdirAll (perm : Perm) : Proc Fs Errno Unit := mkdirAllRev perm (comps path).reverse

/-! ## What the changes do to the objects seen -/

theorem obj_removeAt (q : List Str) : (fs.removeAt p).obj q = if p <+: q then none else fs.obj q := by
  simp only [obj, removeAt]
  split <;> rfl

theorem obj_addAt (o : Obj) (q : List Str) : (fs.addAt p o).obj q = if q = p then some o else fs.obj q := by
  simp only [obj, addAt]
  split
  · simp
  · cases hq : fs.names q with
    | none => rfl
    | some i =>
      have hlt := fs.fresh hq
      simp only [map_some, some.injEq]
      rw [if_neg (by omega)]

theorem obj_linkAt (old p q : List Str) : (fs.linkAt old p).obj q = if q = p then fs.obj old else fs.obj q := by
  simp only [obj, linkAt]
  split <;> rfl

theorem obj_modifyAt (f : Obj → Obj) (q : List Str) :
    (fs.modifyAt p f).obj q = if fs.names q = fs.names p then (fs.obj q).map f else fs.obj q := by
  simp only [obj, modifyAt]
  cases hq : fs.names q with
  | none => simp
  | some i =>
    by_cases hp : fs.names p = some i
    · simp [hp]
    · have hp' : ¬ some i = fs.names p := fun h => hp h.symm
      simp [hp, hp']

end

end Fs

/-! ## A state as a map of objects -/

/-- The objects of a tree by position. -/
abbrev FileMap := List Str → Option Obj

/-- The map with an object put at a position. -/
def FileMap.set (T : FileMap) (p : List Str) (o : Obj) : FileMap := fun q => if q = p then some o else T q

/-- The map with a position and all below it cleared. -/
def FileMap.cut (T : FileMap) (p : List Str) : FileMap := fun q => if p <+: q then none else T q

/-- The state holds the objects of the map, each under one name. -/
structure Shows (fs : Fs) (T : FileMap) : Prop where
  obj : ∀ q, fs.obj q = T q
  sole : ∀ {p q i}, fs.names p = some i → fs.names q = some i → p = q

/-- The position is a path of names through directories of the map. -/
structure Placed (T : FileMap) (p : List Str) : Prop where
  ne_nil : p ≠ []
  proper : ∀ n ∈ p, Proper n
  dirs : ∀ r, r <+: p → r ≠ p → ∃ o, T r = some o ∧ o.body = .dir

variable {fs : Fs} {T : FileMap} {p : List Str} {o : Obj} {m : Mode}

theorem FileMap.set_self (T : FileMap) (p : List Str) (o : Obj) : T.set p o p = some o := by
  simp [FileMap.set]

theorem FileMap.set_set (T : FileMap) (p : List Str) (o o' : Obj) : (T.set p o).set p o' = T.set p o' := by
  funext q
  simp only [FileMap.set]
  split <;> rfl

theorem FileMap.set_eq_self (h : T p = some o) : T.set p o = T := by
  funext q
  unfold FileMap.set
  split
  next hq => rw [hq, h]
  next => rfl

theorem FileMap.cut_self (T : FileMap) (p : List Str) : T.cut p p = none := by
  simp [FileMap.cut]

theorem Placed.set (h : Placed T p) (o : Obj) : Placed (T.set p o) p where
  ne_nil := h.ne_nil
  proper := h.proper
  dirs r hr hne := by
    rw [FileMap.set, if_neg hne]
    exact h.dirs r hr hne

theorem Placed.cut (h : Placed T p) : Placed (T.cut p) p where
  ne_nil := h.ne_nil
  proper := h.proper
  dirs r hr hne := by
    have hpr : ¬ p <+: r := fun hpr => hne (hr.eq_of_length_le hpr.length_le)
    rw [FileMap.cut, if_neg hpr]
    exact h.dirs r hr hne

variable {ds p : List Str} {n : Str}

theorem Placed.sibling {n' : Str} (h : Placed T (ds ++ [n])) (hn : Proper n') : Placed T (ds ++ [n']) where
  ne_nil := by simp
  proper := proper_snoc (forall_mem_append.mp h.proper).1 hn
  dirs r hr hne := by
    have hds := prefix_snoc ((prefix_concat_iff.mp hr).resolve_left hne) n
    exact h.dirs r hds.1 hds.2

section

variable (h : Shows fs T)
include h

theorem Shows.kindAt (q : List Str) : fs.kindAt q = (T q).map (·.body.kind) := by
  rw [Fs.kindAt, h.obj]

theorem Shows.removeAt (p : List Str) : Shows (fs.removeAt p) (T.cut p) where
  obj q := by rw [Fs.obj_removeAt, h.obj]; rfl
  sole := by
    intro q q' i hq hq'
    simp only [Fs.removeAt] at hq hq'
    split at hq
    · cases hq
    split at hq'
    · cases hq'
    exact h.sole hq hq'

theorem Shows.addAt (p : List Str) (o : Obj) : Shows (fs.addAt p o) (T.set p o) where
  obj q := by rw [Fs.obj_addAt, h.obj]; rfl
  sole := by
    -- the new number is `fs.next`, and every number in use lies below it
    intro q q' i hq hq'
    simp only [Fs.addAt] at hq hq'
    split at hq <;> split at hq'
    next h₁ h₂ => rw [h₁, h₂]
    next => cases hq; exact absurd (fs.fresh hq') (by omega)
    next => cases hq'; exact absurd (fs.fresh hq) (by omega)
    next => exact h.sole hq hq'

theorem Shows.modifyAt (f : Obj → Obj) (hp : T p = some o) :
    Shows (fs.modifyAt p f) (T.set p (f o)) where
  obj q := by
    rw [Fs.obj_modifyAt, h.obj, FileMap.set]
    by_cases hq : q = p
    · subst hq
      rw [if_pos rfl, if_pos rfl, hp]; rfl
    rw [if_neg hq]
    split
    next heq =>
      -- no name at `p` shares its inode with another one
      cases hn : fs.names q with
      | none => rw [← h.obj, Fs.obj, hn]; rfl
      | some i => exact absurd (h.sole hn (heq ▸ hn)) hq
    next => rfl
  sole := h.sole

end

/-! ## The calls on a path through directories -/

theorem Fs.find_absPath (h : AllProper p) (h0 : p ≠ []) :
    fs.find m (absPath p) = (resolve fs.kindAt m Fs.maxLinks [] p).map Prod.fst := by
  rw [Fs.find, if_neg (by simp [absPath]), isAbs_absPath, if_pos rfl, elems, hasSuffix_absPath h h0,
    comps_absPath_proper h]
  simp

theorem Placed.exists_snoc (hp : Placed T p) : ∃ ds n, p = ds ++ [n] ∧ AllProper ds ∧ Proper n := by
  obtain ⟨ds, n, rfl⟩ := (eq_nil_or_concat' p).resolve_left hp.ne_nil
  exact ⟨ds, n, rfl, (forall_mem_append.mp hp.proper).1, hp.proper n (by simp)⟩

section

variable (h : Shows fs T)
include h

/-- On a path through directories the last name is looked up in the directory the rest spells. -/
theorem Shows.find_last (hp : Placed T (ds ++ [n])) :
    fs.kindAt ds = some .dir ∧ fs.find m (absPath (ds ++ [n])) =
      (resolve fs.kindAt m Fs.maxLinks ds [n]).map Prod.fst := by
  have hdir : ∀ r, r <+: ds → fs.kindAt r = some .dir := by
    intro r hr
    obtain ⟨o, ho, hb⟩ := hp.dirs r (prefix_snoc hr n).1 (prefix_snoc hr n).2
    rw [h.kindAt, ho, map_some, hb]; rfl
  refine ⟨hdir ds (prefix_refl ds), ?_⟩
  rw [Fs.find_absPath hp.proper (by simp), resolve_dirs _ (hdir [] nil_prefix),
    nil_append]
  · exact fun r _ hr => hdir r hr
  · exact fun d hd => ⟨(hp.proper d (by simp [hd])).2.1, (hp.proper d (by simp [hd])).2.2.1⟩

/-- On a path through directories every call finds the position the path spells, when the object is
there or may be missing, and is not a link to be followed. -/
theorem Shows.find (hp : Placed T p) (hc : m.create ∨ T p ≠ none)
    (hf : m.follow → ∀ o t, T p = some o → o.body ≠ .symlink t) :
    fs.find m (absPath p) = .ok p := by
  obtain ⟨ds, n, rfl, -, hn⟩ := hp.exists_snoc
  obtain ⟨hds, hfind⟩ := h.find_last (m := m) hp
  rw [hfind]
  rcases hx : T (ds ++ [n]) with _ | o
  · have hk : fs.kindAt (ds ++ [n]) = none := by rw [h.kindAt, hx]; rfl
    rw [resolve_missing hds hn.2.1 hn.2.2.1 hk, hc.resolve_right (fun h0 => h0 hx)]
    rfl
  · have hk : fs.kindAt (ds ++ [n]) = some o.body.kind := by rw [h.kindAt, hx]; rfl
    by_cases hlink : ∃ t, o.body = .symlink t
    · obtain ⟨t, hb⟩ := hlink
      have hnf : m.follow = false := by
        cases hm : m.follow with
        | false => rfl
        | true => exact absurd hb (hf hm o t hx)
      rw [hb] at hk
      rw [resolve_symlink hds hn.2.1 hn.2.2.1 hk, hnf]; rfl
    · have hx : ∀ t, o.body.kind ≠ .symlink t := by
        intro t ht
        cases hb : o.body <;> rw [hb] at ht <;> cases ht
        exact hlink ⟨_, hb⟩
      rw [resolve_step hds hn.2.1 hn.2.2.1 hk hx, resolve_nil]; rfl

theorem Shows.lstat (hp : Placed T p) (ho : T p = some o) : Fs.lstat (absPath p) fs = .ok o.body.kind := by
  have hfind := h.find (m := .lstat) hp (.inr (by simp [ho])) (fun hm => by cases hm)
  have hk : fs.kindAt p = some o.body.kind := by rw [h.kindAt, ho]; rfl
  simp only [Fs.lstat, Fs.kindOf, hfind, hk]

theorem Shows.lstat_none (hp : Placed T p) (ho : T p = none) : Fs.lstat (absPath p) fs = .error .enoent := by
  obtain ⟨ds, n, rfl, -, hn⟩ := hp.exists_snoc
  obtain ⟨hds, hfind⟩ := h.find_last (m := .lstat) hp
  have hk : fs.kindAt (ds ++ [n]) = none := by rw [h.kindAt, ho]; rfl
  rw [resolve_missing hds hn.2.1 hn.2.2.1 hk] at hfind
  simp only [Fs.lstat, Fs.kindOf, hfind]
  rfl

/-- The root of a tree is a directory that every call finds. -/
theorem Shows.lstat_root (ho : T [] = some o) (hb : o.body = .dir) : Fs.lstat (absPath []) fs = .ok .dir := by
  have hk : fs.kindAt [] = some .dir := by rw [h.kindAt, ho, map_some, hb]; rfl
  have hfind : fs.find .lstat (absPath []) = .ok [] := by
    show (resolve fs.kindAt .lstat Fs.maxLinks [] [dot]).map Prod.fst = .ok []
    rw [resolve_dot hk, resolve_nil]; rfl
  simp only [Fs.lstat, Fs.kindOf, hfind, hk]

end

/-- A call that finds its position and succeeds there. -/
theorem onPath_spec {path : Str} {act : List Str → Fs → Except Errno Fs} {P Q : Fs → Prop}
    (h : ∀ fs, P fs → fs.find m path = .ok p ∧ ∃ fs', act p fs = .ok fs' ∧ Q fs') :
    Proc.Triple P (Fs.onPath m path act) (fun _ => Q) (fun _ => False) := by
  refine Proc.Triple.of_run fun fs hP => ?_
  obtain ⟨hfind, fs', hact, hQ⟩ := h fs hP
  exact ⟨(), fs', by simp only [Fs.onPath, hfind, hact], hQ⟩

section

variable (hp : Placed T p)
include hp

theorem create_spec (ho : T p = none) (o : Obj) :
    Proc.Triple (Shows · T) (Fs.create (absPath p) o) (fun _ fs => Shows fs (T.set p o)) (fun _ => False) := by
  refine onPath_spec (p := p) fun fs h => ⟨h.find hp (.inl rfl) (fun hm => by cases hm),
    fs.addAt p o, ?_, h.addAt p o⟩
  simp [h.obj, ho]

theorem setAttr_spec (ho : T p = some o)
    (hf : m.follow → ∀ t, o.body ≠ .symlink t) (f : Obj → Obj) :
    Proc.Triple (Shows · T) (Fs.setAttr m (absPath p) f) (fun _ fs => Shows fs (T.set p (f o))) (fun _ => False) := by
  refine onPath_spec (p := p) fun fs h => ⟨h.find hp (.inr (by simp [ho])) ?_,
    fs.modifyAt p f, rfl, h.modifyAt f ho⟩
  intro hm o' t ho'
  rw [ho] at ho'
  cases ho'
  exact hf hm t

theorem writeFile_spec (ho : T p = none) (perm : Perm) (data : Bytes) :
    Proc.Triple (Shows · T) (Fs.writeFile (absPath p) perm data)
      (fun _ fs => Shows fs (T.set p (Fs.newObj (.file data) perm))) (fun _ => False) := by
  refine onPath_spec (p := p) fun fs h => ⟨h.find hp (.inl rfl) (fun _ o t hx => by simp [ho] at hx),
    fs.addAt p (Fs.newObj (.file data) perm), ?_, h.addAt p _⟩
  simp [h.obj, ho]

theorem removeAll_spec :
    Proc.Triple (Shows · T) (Fs.removeAll (absPath p)) (fun _ fs => Shows fs (T.cut p)) (fun _ => False) := by
  refine Proc.Triple.of_run fun fs h => ?_
  have hfind := h.find (m := .name) hp (.inl rfl) (fun hm => by cases hm)
  exact ⟨(), fs.removeAt p, by simp only [Fs.removeAll, hfind, if_neg hp.ne_nil], h.removeAt p⟩

end

end DockerEngine.UnixFs
