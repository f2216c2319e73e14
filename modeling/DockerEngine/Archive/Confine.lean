import DockerEngine.Archive.Lexical
import DockerEngine.Lib.Sealed

/-!
# Which links keep `Unpack` inside its destination

`createTarFile` compares the target of a symbolic link, joined to the link's own directory, with the
destination, and its comment concludes that no path of a later entry has to be checked for links.
The comparison is a text prefix: an absolute target is joined below the destination although the
kernel starts it at the root of the host, `/d2` starts with `/d`, and what a relative target reaches
depends on where the link really stands.

`unpack_outside_unchanged` says what the comparison would have to be for the comment to hold. If every
link that `createTarFile` makes is relative and climbs no further than to the destination from the
directory it is made in, then on any run the positions outside the destination keep their objects, and
no path of an entry resolves outside. A hard link to a symbolic link is such a link too. The theorem is
about every run: the calls of `createTarFile` are recorded with the state each of them starts in, and
the condition is about those.
-/

namespace DockerEngine.Archive

open Filepath Resolve UnixFs List Proc Fs

/-! ## Recorded calls -/

/-- A call of `createTarFile` and the state it starts in. -/
structure CreateCall (σ : Type) where
  path : Str
  hdr : Header
  state : σ

/-- The calls with those of `createTarFile` recorded. -/
def Calls.recorded {σ : Type} (c : Calls σ) : Calls (σ × List (CreateCall σ)) where
  lstat path s := c.lstat path s.1
  mkdirAll path perm := (c.mkdirAll path perm).silent
  removeAll path := (c.removeAll path).silent
  createTarFile path dir hdr data lchown opts :=
    (c.createTarFile path dir hdr data lchown opts).recording fun s => ⟨path, hdr, s⟩
  utimesNano path atime mtime := (c.utimesNano path atime mtime).silent
  tempDir := c.tempDir.silent
  createPlnkFile path dir hdr data lchown opts := (c.createPlnkFile path dir hdr data lchown opts).silent
  openPlnkFile path := (c.openPlnkFile path).silent
  removeTempDir path := (c.removeTempDir path).silent

/-- The calls of `createTarFile` that `Unpack` makes. -/
def createCalls (dest : Str) (options : TarOptions) (archive : List Entry) (fs : Fs) : List (CreateCall Fs) :=
  (unpack calls.recorded dest options archive (fs, [])).2.2

section Erases

variable {σ : Type} (c : Calls σ) (dest : Str) (options : TarOptions)

theorem ensureParent_erases (name : Str) (perm : Perm) :
    Erases (ensureParent c.recorded dest name perm) (ensureParent c dest name perm) := by
  unfold ensureParent
  split
  · exact .pure _
  refine Erases.bind (.read _) fun v => ?_
  split
  · exact .silent
  · exact .pure _

theorem entryPath_erases {ι : Type} (name : Str) :
    Erases (entryPath dest name : Proc (σ × List ι) Err Str) (entryPath dest name) := by
  unfold entryPath
  dsimp only
  split
  · exact .fail _
  · split
    · exact .fail _
    · exact .pure _

theorem unpackEntry_erases (hdr : Header) (data : Bytes) (dirs : List Header) :
    Erases (unpackEntry c.recorded dest options hdr data dirs) (unpackEntry c dest options hdr data dirs) := by
  refine (entryPath_erases dest hdr.name).bind fun path => Erases.bind (.read _) fun v => ?_
  have hfile : Erases (unpackFile c.recorded dest options path hdr data dirs) _ :=
    Erases.bind (.recording _) fun _ => .pure _
  split
  · split_ifs
    · exact .fail _
    · exact .fail _
    · exact .pure _
    · exact hfile
    · exact Erases.bind .silent fun _ => hfile
  · exact hfile

theorem unpackLoop_erases (es : List Entry) : ∀ dirs, Erases
    (unpackLoop c.recorded dest options es dirs) (unpackLoop c dest options es dirs) := by
  induction es with
  | nil => exact fun dirs => .forM dirs fun _ => .silent
  | cons e es ih =>
    intro dirs
    rw [unpackLoop, unpackLoop]
    split
    · exact ih dirs
    · exact (ensureParent_erases c dest _ _).bind fun _ =>
        (unpackEntry_erases c dest options _ _ dirs).bind fun dirs' => ih dirs'

end Erases

/-! ## `createTarFile` -/

/-- What the call of `createTarFile` puts into the destination climbs out of it neither as a symbolic
link nor as a second name for one. -/
def Tame (dest : Str) (call : CreateCall Fs) : Prop :=
  (call.hdr.typeflag = .symlink → TameAt (comps dest) call.path call.hdr.linkname call.state) ∧
    (call.hdr.typeflag = .link → comps dest <+: walk (comps dest) (comps call.hdr.linkname) ∧
      ∀ t, lstat (join [dest, call.hdr.linkname]) call.state = .ok (.symlink t) →
        TameAt (comps dest) call.path t call.state)

instance (dest : Str) (call : CreateCall Fs) : Decidable (Tame dest call) := inferInstanceAs (Decidable (_ ∧ _))

/-- The program keeps `D` sealed and the rest as it was. -/
abbrev KeepsOutside {α : Type} (D : List Str) (fs₀ : Fs) (m : Proc Fs Err α) : Prop := Preserves (Kept D fs₀) m

section CreateTarFile

variable {D P : List Str} (fs₀ : Fs) (h0 : D ≠ []) (hD : ∀ n ∈ D, Proper n)
  (hP : ∀ n ∈ P, Proper n) (hin : D <+: P)

include h0 hP hin

theorem sys_setAttr_kept (m : Mode) {f : Obj → Obj} (hf : ∀ o, (f o).body.kind = o.body.kind) :
    KeepsOutside D fs₀ (sys (setAttr m (absPath P) f)) :=
  (setAttr_kept h0 hP hin hf).mapError

include hD

theorem createTarObject_kept (hdr : Header) (data : Bytes) :
    Triple (fun fs => Kept D fs₀ fs ∧ Tame (absPath D) ⟨absPath P, hdr, fs⟩)
      (createTarObject (absPath P) (absPath D) hdr data) (fun _ => Kept D fs₀) (Kept D fs₀) := by
  have hreturn : ∀ {m : Proc Fs Errno Unit} {R : Fs → Prop},
      Triple R m (fun _ => Kept D fs₀) (Kept D fs₀) →
      Triple R (do sys m; pure true) (fun _ => Kept D fs₀) (Kept D fs₀) :=
    fun h => h.mapError.bind fun _ => .pure _ fun _ h => h
  have hnode : ∀ bits, Triple (fun fs => Kept D fs₀ fs ∧ Tame (absPath D) ⟨absPath P, hdr, fs⟩)
      (do handleTarTypeBlockCharFifo hdr (absPath P) bits; pure true) (fun _ => Kept D fs₀)
      (Kept D fs₀) := by
    intro bits
    refine (hreturn (create_kept h0 hP hin fun t ht => ?_)).pre fun _ h => h.1
    cases ht
  unfold createTarObject
  cases htype : hdr.typeflag with
  | dir =>
    refine .read_any fun v => ?_
    split
    · exact .pure _ fun _ h => h.1
    · exact (hreturn (mkdir_kept h0 hP hin _)).pre fun _ h => h.1
  | reg => exact (hreturn (writeFile_kept h0 hP hin _ _)).pre fun _ h => h.1
  | regA => exact (hreturn (writeFile_kept h0 hP hin _ _)).pre fun _ h => h.1
  | block => exact hnode _
  | char => exact hnode _
  | fifo => exact hnode _
  | link =>
    dsimp only
    split
    · have htarget : ∀ fs, Tame (absPath D) ⟨absPath P, hdr, fs⟩ → D <+: walk D (comps hdr.linkname) ∧
          ∀ t, lstat (absPath (walk D (comps hdr.linkname))) fs = .ok (.symlink t) →
            TameAt D (absPath P) t fs := by
        intro fs ht
        have := ht.2 htype
        rwa [comps_absPath_proper hD, join_absPath hD] at this
      rw [join_absPath hD]
      by_cases hinside : D <+: walk D (comps hdr.linkname)
      · refine (hreturn (link_kept h0 hP hin (walk_names hD fun _ => mem_comps) hinside)).pre ?_
        exact fun fs h => ⟨h.1, (htarget fs h.2).2⟩
      · exact fun fs h => absurd (htarget fs h.2).1 hinside
    · exact .fail _ fun _ h => h.1
  | symlink =>
    dsimp only
    split
    · refine (hreturn (symlink_kept h0 hP hin _)).pre fun fs h => ⟨h.1, ?_⟩
      have := h.2.1 htype
      rwa [comps_absPath_proper hD] at this
    · exact .fail _ fun _ h => h.1
  | xGlobalHeader => exact .pure _ fun _ h => h.1
  | other flag => exact .fail _ fun _ h => h.1

end CreateTarFile

/-! ## `Unpack` -/

/-- The path is one below `D`. -/
def PathBelow (D : List Str) (path : Str) : Prop := ∃ P, (∀ n ∈ P, Proper n) ∧ D <+: P ∧ path = absPath P

variable {D : List Str} {name : Str}

/-- The parent of a path below `D` is below `D` or on the way to it. -/
theorem parentOf_side (h0 : D ≠ []) (h : D <+: leadsTo D name) :
    D <+: parentOf D name ∨ parentOf D name <+: D := by
  rcases leadsTo_cases D name with ⟨-, hp, -⟩ | ⟨k, hl, -, -, -⟩ | ⟨k, ms, x, hl, hp, -, -⟩
  · exact .inl (by rw [hp])
  · rw [hl] at h
    exact absurd h (not_prefix_take h0 (Nat.succ_pos k))
  rw [hl, ← hp] at h
  rcases prefix_concat_iff.mp h with he | h
  · exact .inr ⟨[x], he.symm⟩
  · exact .inl h

section Unpack

variable {D : List Str} (fs₀ : Fs) (h0 : D ≠ []) (hD : ∀ n ∈ D, Proper n) (options : TarOptions)

/-- The path of a recorded call leads below `D` in the state it starts in. -/
def LeadsInside (D : List Str) (call : CreateCall Fs) : Prop := ∀ m q, call.state.find m call.path = .ok q → D <+: q

/-- The state of a recorded run: if the calls were tame, `D` is sealed, the rest as it was, and the
paths of the calls led below `D`. -/
abbrev Confining (D : List Str) (fs₀ : Fs) : Fs × List (CreateCall Fs) → Prop :=
  Recorded (Tame (absPath D)) (LeadsInside D) (Kept D fs₀)

include h0 hD

theorem recorded_keepOn : calls.recorded.KeepOn (absPath D) options (PathBelow D) (Confining D fs₀) where
  removeAll := by
    rintro _ ⟨P, hP, hin, rfl⟩
    exact .silent_recorded (removeAll_kept h0 hP hin).mapError
  createTarFile := by
    rintro _ hdr data ⟨P, hP, hin, rfl⟩
    refine .recording (fun fs hk m q hfind => hk.isSealed.find_inside h0 hP hin hfind) ?_
    refine (createTarObject_kept fs₀ h0 hD hP hin hdr data).bind fun b => ?_
    cases b with
    | false => exact .pure _ fun _ h => h
    | true =>
      exact setTarAttrs_of_calls _ (Triple.compositional _) (fun m _ => sys_setAttr_kept fs₀ h0 hP hin m) hdr _ _
  utimesNano := by
    rintro _ atime mtime ⟨P, hP, hin, rfl⟩
    exact .silent_recorded (sys_setAttr_kept fs₀ h0 hP hin .stat fun _ => rfl)

/-- Every round keeps the destination sealed, and so does the loop at the end. -/
theorem unpackLoop_confining (es : List Entry)
    (hnames : ∀ e ∈ es, options.excludes (clean e.hdr.name) = false → D <+: leadsTo D e.hdr.name) :
    Preserves (Confining D fs₀) (unpackLoop calls.recorded (absPath D) options es []) := by
  refine unpackLoop_preserves (recorded_keepOn fs₀ h0 hD options) es (fun e he hex => ?_) [] nofun
  have hin := hnames e he hex
  refine ⟨ensureParent_preserves fun _ => ?_, _, leadsTo_names hD _, hin, join_absPath hD _⟩
  rw [join_absPath hD]
  refine .silent_recorded (.mapError ?_)
  exact mkdirAll_kept h0 (walk_names hD fun _ => mem_comps) hD _ (parentOf_side h0 hin)

end Unpack

/-- An empty directory is sealed. -/
theorem sealed_empty {D : List Str} {fs : Fs} (hdirs : ∀ r, r <+: D → fs.kindAt r = some .dir)
    (hsole : ∀ q, fs.names q = fs.names D → q = D)
    (hempty : ∀ u, u ≠ [] → fs.names (D ++ u) = none) : Sealed D fs := by
  have honly : ∀ p, D <+: p → fs.names p ≠ none → p = D := by
    rintro _ ⟨u, rfl⟩ hp
    by_contra hu
    exact hp (hempty u fun h => hu (by simp [h]))
  refine ⟨fun r hr _ => hdirs r hr, fun {p q i} hp hq hin => ?_, fun {p x} hin hx => ?_⟩
  · have he := honly p hin (by simp [hp])
    rw [hsole q (by rw [hq, ← he, hp])]
  have hname : fs.names p ≠ none := fun h => by
    rw [kindAt, obj, h] at hx
    cases hx
  have he := honly p hin hname
  rw [he, hdirs D (prefix_refl D)] at hx
  cases hx
  exact fitsAt_of_ne fun t ht => by cases ht

/-- **Tame links keep `Unpack` in its destination.** For every run into an empty directory: if the
names of the entries lead below the directory and the links made by `createTarFile` do not climb out of
it from where they are made, everything outside is as before, also after a run that fails. No path
that `createTarFile` got has led outside. -/
theorem unpack_outside_unchanged {dest : Str} (habs : isAbs dest = true) (hclean : clean dest = dest)
    (hroot : dest ≠ "/".toList) (options : TarOptions) (entries : List Entry) {fs : Fs}
    (hdirs : ∀ r, r <+: comps dest → fs.kindAt r = some .dir)
    (hsole : ∀ q, fs.names q = fs.names (comps dest) → q = comps dest)
    (hempty : ∀ u, u ≠ [] → fs.names (comps dest ++ u) = none)
    (hnames : ∀ e ∈ entries, options.excludes (clean e.hdr.name) = false →
      comps dest <+: leadsTo (comps dest) e.hdr.name)
    (htame : ∀ call ∈ createCalls dest options entries fs, Tame dest call) :
    (∀ q, ¬ comps dest <+: q → (unpack calls dest options entries fs).2.obj q = fs.obj q) ∧
      ∀ call ∈ createCalls dest options entries fs, ∀ m q,
        call.state.find m call.path = .ok q → comps dest <+: q := by
  obtain ⟨D, hD, rfl⟩ := exists_absPath habs hclean
  have h0 : D ≠ [] := by
    rintro rfl
    exact hroot rfl
  rw [comps_absPath_proper hD] at *
  have hstart : Confining D fs (fs, []) := fun _ =>
    ⟨⟨sealed_empty hdirs hsole hempty, fun _ _ => rfl, fun _ _ => rfl⟩, fun _ h => by cases h⟩
  have hrun := (unpackLoop_confining fs h0 hD options entries hnames).snd hstart
  obtain ⟨hkept, hinside⟩ := hrun htame
  have herase := (unpackLoop_erases calls (absPath D) options entries [] fs []).2
  refine ⟨fun q hq => ?_, hinside⟩
  rw [unpack, ← herase]
  exact hkept.obj q hq

/-! ### A host -/

/-- A host with an empty directory `/d` and a directory `/etc`. -/
def host : Fs where
  names p := if p = [] then some 0 else if p = ["d".toList] then some 1
    else if p = ["etc".toList] then some 2 else none
  inodes _ := newObj .dir 0o755
  next := 3
  cwd := []
  fresh := by
    intro p i h
    grind

/-- An entry that is a symbolic link. -/
def linkTo (name target : Str) : Entry :=
  ⟨⟨name, .symlink, 0o777, 0, 0, 0, none, none, target, [], 0, 0⟩, []⟩

/-- A directory, made in the destination. -/
def emptyDir (name : Str) : Entry :=
  ⟨⟨name, .dir, 0o755, 0, 0, 0, none, none, [], [], 0, 0⟩, []⟩

/-- A file made through a link that stays in the destination. -/
def tameArchive : List Entry :=
  [emptyDir "a".toList, emptyDir "b".toList, linkTo "a/l".toList "../b".toList, emptyFile "a/l/f".toList]

theorem unpack_tameArchive :
    (unpack calls "/d".toList defaultOptions tameArchive host).2.obj
        ["d".toList, "b".toList, "f".toList] = some (newObj (.file []) 0o644) ∧
      ∀ q, ¬ ["d".toList] <+: q →
        (unpack calls "/d".toList defaultOptions tameArchive host).2.obj q = host.obj q := by
  have h := @unpack_outside_unchanged "/d".toList (by decide) (by decide) (by decide) defaultOptions
    tameArchive host ?_ ?_ ?_ (by decide) (by decide)
  · exact ⟨by decide, h.1⟩
  · intro r hr
    rcases prefix_cons_iff.mp hr with rfl | ⟨t, rfl, ht⟩
    · rfl
    · rw [prefix_nil.mp ht]; rfl
  · intro q hq
    have hd : host.names (comps "/d".toList) = some 1 := by decide
    rw [hd] at hq
    simp only [host] at hq
    split at hq
    · cases hq
    · split at hq
      next he => exact he
      next => split at hq <;> cases hq
  · intro u hu
    obtain ⟨x, u, rfl⟩ := exists_cons_of_ne_nil hu
    have hd : comps "/d".toList = ["d".toList] := by decide
    rw [hd]
    simp [host]

/-- The link passes the comparison as `/d/etc`, and the file is made in `/etc`. -/
theorem unpack_through_symlink :
    (unpack calls "/d".toList defaultOptions
      [linkTo "x".toList "/etc".toList, emptyFile "x/f".toList] host).1 = .ok () ∧
    host.obj ["etc".toList, "f".toList] = none ∧
    (unpack calls "/d".toList defaultOptions
      [linkTo "x".toList "/etc".toList, emptyFile "x/f".toList] host).2.obj
        ["etc".toList, "f".toList] = some (newObj (.file []) 0o644) := by
  refine ⟨?_, ?_, ?_⟩
  · rfl
  · rfl
  · decide

end DockerEngine.Archive
