import DockerEngine.Archive.Export

/-!
# One entry applied to a tree

What `UnpackLayer` does with one entry of an exported layer when it unpacks at the root of a file
system: the entry of a file puts that file at its path, in place of what was there unless a
directory meets a directory, and a whiteout clears the path it names. The file system is read through
`Shows`, so each statement is about the map of objects; the results are triples whose failure
condition is `False`, so the calls succeed.

`Plain` says which objects are meant: directories, regular files whose only extended attribute may
be a capability, and symbolic links.
-/

namespace DockerEngine.Archive

open Filepath Resolve UnixFs List Proc Fs

/-- An object of the trees compared: a directory, a file or a link, with a capability on files
alone. -/
def Plain (o : Obj) : Prop :=
  match o.body with
  | .dir => o.xattrs = []
  | .file _ => o.xattrs = [] ∨ ∃ v, v ≠ [] ∧ o.xattrs = [(capabilityKey, v)]
  | .symlink target => target ≠ [] ∧ o.perm = 0o777 ∧ o.xattrs = []
  | .special _ _ => False

theorem Plain.xattrs {o : Obj} (h : Plain o) : o.xattrs = [] ∨ ∃ v, v ≠ [] ∧ o.xattrs = [(capabilityKey, v)] := by
  unfold Plain at h
  split at h
  next => exact .inl h
  next => exact h
  next => exact .inl h.2.2
  next => exact h.elim

/-- The object as the archive brings it back: with its modification time in whole seconds. -/
def tarred (o : Obj) : Obj := { o with mtime := tarTime o.mtime }

/-- No failure. -/
abbrev NoFail : Fs → Prop := fun _ => False

variable {T : FileMap} {p : List Str} {a o : Obj} (name : Str)

/-! ## The attributes -/

/-- The object after `createTarFile` has set the attributes of a header that is no hard link. -/
def withAttrs (hdr : Header) (a : Obj) : Obj :=
  let owned := chowned hdr.uid hdr.gid a
  let marked := hdr.xattrs.foldl (fun o x => withXattr x.1 x.2 o) owned
  let moded := if hdr.typeflag = .symlink then marked
    else { marked with perm := Fin.ofNat 4096 hdr.mode }
  withMtime hdr.modTime moded

theorem chowned_body (uid gid : Nat) (o : Obj) : (chowned uid gid o).body = o.body := by
  unfold chowned
  split <;> rfl

/-- Setting extended attributes changes nothing else. -/
theorem foldl_withXattr {β : Type} (g : Obj → β) (hg : ∀ k v o, g (withXattr k v o) = g o)
    (xs : List (Str × Bytes)) (o : Obj) :
    g (xs.foldl (fun o x => withXattr x.1 x.2 o) o) = g o := by
  induction xs generalizing o with
  | nil => rfl
  | cons x xs ih => rw [foldl_cons, ih, hg]

theorem sys_setAttr_spec {m : Mode} (hp : Placed T p) (hf : m.follow → ∀ t, a.body ≠ .symlink t) (f : Obj → Obj) :
    Triple (Shows · (T.set p a)) (sys (setAttr m (absPath p) f))
      (fun _ fs => Shows fs (T.set p (f a))) NoFail := by
  have h := setAttr_spec (m := m) (hp.set a) (FileMap.set_self T p a) hf f
  rw [FileMap.set_set] at h
  exact h.mapError

/-- The loop over the extended attributes. -/
theorem setXattrs_spec (hp : Placed T p) (xs : List (Str × Bytes)) (a : Obj) :
    Triple (Shows · (T.set p a)) (xs.forM fun x => sys (lsetxattr (absPath p) x.1 x.2))
      (fun _ fs => Shows fs (T.set p (xs.foldl (fun o x => withXattr x.1 x.2 o) a))) NoFail := by
  induction xs generalizing a with
  | nil => exact .pure _ fun _ h => h
  | cons x xs ih =>
    exact (sys_setAttr_spec hp (fun h => by cases h) _).bind fun _ => ih (withXattr x.1 x.2 a)

variable {ds : List Str} {hdr : Header} {n : Str}

theorem setTarAttrs_spec (hp : Placed T p) (hlink : hdr.typeflag ≠ .link)
    (hsym : hdr.typeflag ≠ .symlink → ∀ t, a.body ≠ .symlink t) :
    Triple (Shows · (T.set p a)) (setTarAttrs (absPath p) hdr true none)
      (fun _ fs => Shows fs (T.set p (withAttrs hdr a))) NoFail := by
  unfold setTarAttrs
  refine (sys_setAttr_spec hp (fun h => by cases h) (chowned hdr.uid hdr.gid)).bind fun _ => ?_
  refine (setXattrs_spec hp hdr.xattrs _).bind fun _ => ?_
  have hbody : (hdr.xattrs.foldl (fun o x => withXattr x.1 x.2 o)
      (chowned hdr.uid hdr.gid a)).body = a.body := by
    rw [foldl_withXattr Obj.body fun _ _ _ => rfl, chowned_body]
  rw [handleLChmod, setFileTimes, if_neg hlink, if_neg hlink]
  by_cases hs : hdr.typeflag = .symlink
  · have hattrs : withAttrs hdr a = withMtime hdr.modTime (hdr.xattrs.foldl
        (fun o x => withXattr x.1 x.2 o) (chowned hdr.uid hdr.gid a)) := by
      simp [withAttrs, hs]
    simp only [hs, ne_eq, not_true, if_false]
    rw [hattrs]
    exact sys_setAttr_spec hp (fun h => by cases h) (withMtime hdr.modTime)
  · have hattrs : withAttrs hdr a = withMtime hdr.modTime { hdr.xattrs.foldl
        (fun o x => withXattr x.1 x.2 o) (chowned hdr.uid hdr.gid a) with
          perm := Fin.ofNat 4096 hdr.mode } := by
      simp [withAttrs, hs]
    simp only [ne_eq, hs, not_false_eq_true, if_true]
    rw [hattrs]
    refine (sys_setAttr_spec hp (fun _ t => ?_) _).bind fun _ =>
      sys_setAttr_spec hp (fun _ t => ?_) (withMtime hdr.modTime)
    · rw [hbody]; exact hsym hs t
    · exact hbody ▸ hsym hs t

/-- The mode of a header restores the permission bits. -/
theorem ofNat_statMode (o : Obj) (h : ∀ mode rdev, o.body ≠ .special mode rdev) :
    Fin.ofNat 4096 (statMode o) = o.perm := by
  have hlt := o.perm.isLt
  apply Fin.ext
  show statMode o % 4096 = o.perm.val
  unfold statMode
  cases hb : o.body with
  | special mode rdev => exact absurd hb (h mode rdev)
  | dir => simp only [typeBits, sIFDIR]; omega
  | file c => simp only [typeBits, sIFREG]; omega
  | symlink t => simp only [typeBits, sIFLNK]; omega

theorem withAttrs_body (hdr : Header) (a : Obj) : (withAttrs hdr a).body = a.body := by
  have h := foldl_withXattr Obj.body (fun _ _ _ => rfl) hdr.xattrs (chowned hdr.uid hdr.gid a)
  rw [chowned_body] at h
  by_cases hs : hdr.typeflag = .symlink <;> simp only [withAttrs, hs, if_true, if_false] <;> exact h

theorem withAttrs_owner (hdr : Header) (a : Obj) :
    ((withAttrs hdr a).uid, (withAttrs hdr a).gid) = (hdr.uid, hdr.gid) := by
  have h := foldl_withXattr (fun o => (o.uid, o.gid)) (fun _ _ _ => rfl) hdr.xattrs (chowned hdr.uid hdr.gid a)
  have hown : ((chowned hdr.uid hdr.gid a).uid, (chowned hdr.uid hdr.gid a).gid) = (hdr.uid, hdr.gid) := by
    unfold chowned
    split <;> rfl
  rw [hown] at h
  by_cases hs : hdr.typeflag = .symlink <;> simp only [withAttrs, hs, if_true, if_false] <;> exact h

theorem withAttrs_mtime {t : Time} (h : hdr.modTime = some t) (a : Obj) : (withAttrs hdr a).mtime = t := by
  by_cases hs : hdr.typeflag = .symlink <;>
    simp only [withAttrs, hs, if_true, if_false, h] <;> rfl

theorem withAttrs_xattrs (hdr : Header) {a : Obj} (hx : a.xattrs = []) :
    (withAttrs hdr a).xattrs = (hdr.xattrs.foldl (fun o x => withXattr x.1 x.2 o)
      (chowned hdr.uid hdr.gid a)).xattrs ∧ (chowned hdr.uid hdr.gid a).xattrs = [] := by
  constructor
  · by_cases hs : hdr.typeflag = .symlink <;> simp only [withAttrs, hs, if_true, if_false] <;> rfl
  · unfold chowned
    split <;> simp [hx]

/-- The attributes a file's header gives are those of the file. -/
theorem withAttrs_fileHeader (ho : Plain o) (hbody : a.body = o.body)
    (hx : a.xattrs = []) (hsym : ∀ t, o.body = .symlink t → a.perm = 0o777) :
    withAttrs (fileHeader name o) a = tarred o := by
  obtain ⟨hxattrs, hnone⟩ := withAttrs_xattrs (fileHeader name o) hx
  have hown := withAttrs_owner (fileHeader name o) a
  refine Obj.ext ?_ ?_ (congrArg Prod.fst hown) (congrArg Prod.snd hown) (withAttrs_mtime rfl a) ?_
  · rw [withAttrs_body, hbody]; rfl
  · by_cases hlink : ∃ t, o.body = .symlink t
    · -- a link keeps the mode it was created with
      obtain ⟨t, ht⟩ := hlink
      have hperm := foldl_withXattr Obj.perm (fun _ _ _ => rfl) (fileHeader name o).xattrs
        (chowned (fileHeader name o).uid (fileHeader name o).gid a)
      have hflag : (fileHeader name o).typeflag = .symlink := by simp only [fileHeader, ht, headerType]
      have hown : (chowned (fileHeader name o).uid (fileHeader name o).gid a).perm = a.perm := by
        rw [chowned, hbody, ht]
      simp only [withAttrs, hflag, if_true]
      simp only [Plain, ht] at ho
      exact hperm.trans (hown.trans ((hsym t ht).trans ho.2.1.symm))
    · have hflag : (fileHeader name o).typeflag ≠ .symlink := by
        intro h
        simp only [fileHeader, headerType] at h
        split at h
        next => cases h
        next => cases h
        next t ht => exact hlink ⟨t, ht⟩
        next => split at h <;> [cases h; split at h <;> cases h]
      simp only [withAttrs, hflag, if_false]
      refine ofNat_statMode o fun mode rdev hb => ?_
      simp only [Plain, hb] at ho
  · rw [hxattrs]
    show _ = o.xattrs
    rcases ho.xattrs with h | ⟨v, -, h⟩
    · have hhdr : (fileHeader name o).xattrs = [] := by simp [fileHeader, h]
      rw [hhdr, foldl_nil, hnone, h]
    have hhdr : (fileHeader name o).xattrs = [(capabilityKey, v)] := by
      simp [fileHeader, h]
    rw [hhdr, foldl_cons, foldl_nil, withXattr, hnone, h]
    rfl

/-! ## The file -/

/-- A path at which the entry of an object can be created: nothing is there, or both are
directories. -/
def Fits (o : Obj) (there : Option Obj) : Prop :=
  there = none ∨ o.body = .dir ∧ ∃ a, there = some a ∧ a.body = .dir ∧ a.xattrs = []

section

variable (ho : Plain o) (hp : Placed T p) (hfit : Fits o (T p))
include ho hp hfit

/-- The object itself is created, or found when both are directories. -/
theorem createTarObject_spec :
    ∃ a : Obj, a.body = o.body ∧ a.xattrs = [] ∧ (∀ t, o.body = .symlink t → a.perm = 0o777) ∧
      Triple (Shows · T) (createTarObject (absPath p) (absPath []) (fileHeader name o) (fileData o))
        (fun b fs => b ∧ Shows fs (T.set p a)) NoFail := by
  have hcreate : ∀ a, T p = none → Triple (Shows · T) (do sys (create (absPath p) a); pure true)
      (fun b fs => b ∧ Shows fs (T.set p a)) NoFail := fun a hnone =>
    (create_spec hp hnone a).mapError.bind fun _ => .pure true fun _ h => ⟨rfl, h⟩
  cases hb : o.body with
  | special mode rdev => simp only [Plain, hb] at ho
  | dir =>
    have hflag : (fileHeader name o).typeflag = .dir := by simp only [fileHeader, hb, headerType]
    rcases hfit with hnone | ⟨-, a, hsome, hdir, hx⟩
    · refine ⟨newObj .dir (Fin.ofNat 4096 (fileHeader name o).mode), rfl, rfl, nofun, ?_⟩
      simp only [createTarObject, hflag]
      exact .read_bind_of_eq (fun fs h => h.lstat_none hp hnone) (hcreate _ hnone)
    · refine ⟨a, hdir, hx, nofun, ?_⟩
      simp only [createTarObject, hflag]
      refine .read_bind_of_eq (fun fs h => h.lstat hp hsome) ?_
      rw [hdir]
      exact Triple.pure true fun _ h => ⟨rfl, by rwa [FileMap.set_eq_self hsome]⟩
  | file c =>
    have hflag : (fileHeader name o).typeflag = .reg := by simp only [fileHeader, hb, headerType]
    have hdata : (fileData o) = c := by simp only [fileData, hb]
    have hnone : T p = none := hfit.resolve_right fun h => by simp [hb] at h
    refine ⟨newObj (.file c) (Fin.ofNat 4096 (fileHeader name o).mode), rfl, rfl, nofun, ?_⟩
    simp only [createTarObject, hflag, hdata]
    exact (writeFile_spec hp hnone _ c).mapError.bind fun _ =>
      Triple.pure true fun _ h => ⟨rfl, h⟩
  | symlink t =>
    have hflag : (fileHeader name o).typeflag = .symlink := by simp only [fileHeader, hb, headerType]
    have hlink : (fileHeader name o).linkname = t := by simp only [fileHeader, hb]
    have hnone : T p = none := hfit.resolve_right fun h => by simp [hb] at h
    simp only [Plain, hb] at ho
    obtain ⟨ds, n, rfl, hds, hn⟩ := hp.exists_snoc
    -- the target, read from the link's directory, is an absolute path
    have hinside : hasPrefix (join [dir (absPath (ds ++ [n])), t]) (absPath []) := by
      rw [dir_absPath_snoc hds hn, join_absPath hds]
      rfl
    refine ⟨newObj (.symlink t) 0o777, rfl, rfl, fun _ _ => rfl, ?_⟩
    simp only [createTarObject, hflag, hlink, hinside, if_true, symlink, if_neg ho.1]
    exact hcreate _ hnone

/-- **One file extracted**: the object of the entry stands at its path, and nothing else has
changed. -/
theorem createTarFile_spec :
    Triple (Shows · T) (createTarFile (absPath p) (absPath []) (fileHeader name o) (fileData o) true none)
      (fun _ fs => Shows fs (T.set p (tarred o))) NoFail := by
  obtain ⟨a, hbody, hx, hperm, hobj⟩ := createTarObject_spec name ho hp hfit
  refine hobj.bind fun b => ?_
  cases b with
  | false => exact fun fs h => absurd h.1 (by simp)
  | true =>
    have hattrs := @setTarAttrs_spec T p a (fileHeader name o) hp
      (headerType_ne_link o.body) fun hflag t ht => hflag (by
        show headerType o.body = .symlink
        rw [← hbody, ht]; rfl)
    rw [withAttrs_fileHeader name ho hbody hx hperm] at hattrs
    exact hattrs.mono (fun _ h => h.2) (fun _ _ h => h) fun _ h => h

end

/-! ## The entry -/

/-- The name of an entry, cleaned, is the path it was made from. -/
theorem clean_canonicalTarName (hp : AllProper p) (h0 : p ≠ []) (isDir : Bool) :
    clean (canonicalTarName (joinSlash p) isDir) = joinSlash p := by
  have hel : AllElems p := fun n hn => (hp n hn).elem
  have habs := isAbs_joinSlash hel
  have hcomps := comps_joinSlash hel
  unfold canonicalTarName
  split
  · have hne : joinSlash p ≠ [] := by
      intro h
      rw [h, comps_nil] at hcomps
      exact h0 hcomps.symm
    refine clean_names ?_ (by rw [comps_append_sep, hcomps]) hp h0
    cases hj : joinSlash p with
    | nil => exact absurd hj hne
    | cons c s => rw [hj] at habs; exact habs
  · exact clean_names habs hcomps hp h0

/-- The path of an entry below the root passes the check. -/
theorem entryPath_root {σ : Type} (hp : AllProper p) (h0 : p ≠ []) :
    entryPath (absPath []) (joinSlash p) = (pure (absPath p) : Proc σ Err Str) := by
  have hel : AllElems p := fun n hn => (hp n hn).elem
  have hpath : join [absPath [], joinSlash p] = absPath p := by
    rw [join_absPath (by simp), comps_joinSlash hel, walk_proper [] hp, nil_append]
  have hrel : rel (absPath []) (absPath p) = some (joinSlash p) := by
    rw [rel_absPath (by simp) hp, if_neg h0]
    simp [stripCommon]
  have hup : hasPrefix (joinSlash p) "../".toList = false := by
    rw [Bool.eq_false_iff]
    intro h
    obtain ⟨t, -, rfl⟩ := (hasPrefix_up hel).mp h
    exact (hp dotdot (by simp)).2.2.1 rfl
  simp only [entryPath, hpath, hrel, hup, Bool.false_eq_true, if_false]

/-- The parent directory of an entry that fits into the tree is there. -/
theorem ensureParent_root (hp : Placed T p) (perm : Perm) :
    Triple (Shows · T) (ensureParent calls (absPath []) (joinSlash p) perm) (fun _ fs => Shows fs T) NoFail := by
  obtain ⟨ds, n, rfl, hds, hn⟩ := hp.exists_snoc
  have hel : AllElems ds := fun m hm => (hds m hm).elem
  have hparent : join [absPath [], dir (joinSlash (ds ++ [n]))] = absPath ds := by
    rw [join_absPath (by simp), walk_comps_dir hel hn.elem, walk_proper [] hds,
      nil_append]
  have hdirs : ∀ r, r <+: ds → ∃ o, T r = some o ∧ o.body = .dir := fun r hr =>
    hp.dirs r (prefix_snoc hr n).1 (prefix_snoc hr n).2
  have hthere : ∀ fs, Shows fs T → lstat (absPath ds) fs = .ok .dir := by
    intro fs h
    obtain ⟨o, ho, hb⟩ := hdirs ds (prefix_refl ds)
    by_cases h0 : ds = []
    · subst h0
      exact h.lstat_root ho hb
    · rw [h.lstat ⟨h0, hds, fun r hr _ => hdirs r hr⟩ ho, hb]; rfl
  rw [ensureParent, hasSuffix_joinSlash fun m hm => (hp.proper m hm).elem]
  simp only [Bool.false_eq_true, if_false, hparent]
  exact .read_bind_of_eq hthere (.pure _ fun _ h => h)

/-- What was at the path of a file, and what is there when the file is extracted. -/
def clearFor (T : FileMap) (p : List Str) (o : Obj) : FileMap :=
  match T p with
  | none => T
  | some a => if a.body = .dir ∧ o.body = .dir then T else T.cut p

theorem clearFor_beside {q : List Str} (h : ¬ p <+: q) : clearFor T p o q = T q := by
  cases hT : T p with
  | none => simp only [clearFor, hT]
  | some a =>
    simp only [clearFor, hT]
    split
    · rfl
    · rw [FileMap.cut, if_neg h]

theorem headerType_eq_dir {b : Body} : headerType b = .dir ↔ b = .dir := by
  cases b with
  | dir => simp [headerType]
  | file c => simp [headerType]
  | symlink t => simp [headerType]
  | special mode rdev =>
    simp only [headerType, reduceCtorEq, iff_false]
    split <;> [simp; split <;> simp]

theorem clearPath_spec (hp : Placed T p) :
    Triple (Shows · T) (clearPath calls (absPath p) (fileHeader name o))
      (fun _ fs => Shows fs (clearFor T p o)) NoFail := by
  have hflag : (fileHeader name o).typeflag = .dir ↔ o.body = .dir := headerType_eq_dir
  unfold clearPath
  cases hT : T p with
  | none =>
    simp only [clearFor, hT]
    exact .read_bind_of_eq (fun fs h => h.lstat_none hp hT) (.pure _ fun _ h => h)
  | some a =>
    have hkind : a.body.kind = .dir ↔ a.body = .dir := by
      cases a.body <;> simp [Body.kind]
    simp only [clearFor, hT]
    refine .read_bind_of_eq (fun fs h => h.lstat hp hT) ?_
    simp only [hkind, hflag]
    split
    · exact .pure _ fun _ h => h
    · exact (removeAll_spec hp).mapError

theorem placed_clearFor (hp : Placed T p) : Placed (clearFor T p o) p := by
  unfold clearFor
  split
  · exact hp
  · split
    · exact hp
    · exact hp.cut

theorem fits_clearFor (hdirs : ∀ a, T p = some a → a.body = .dir → a.xattrs = []) : Fits o (clearFor T p o p) := by
  cases hT : T p with
  | none => exact .inl (by simp only [clearFor, hT])
  | some a =>
    by_cases h : a.body = .dir ∧ o.body = .dir
    · exact .inr ⟨h.2, a, by simp only [clearFor, hT, if_pos h], h.1, hdirs a hT h.1⟩
    · exact .inl (by simp only [clearFor, hT, if_neg h, FileMap.cut_self])

/-- A file's entry replaces what is at its path, unless both are directories. -/
theorem layerFile_spec (st : LayerState) (ho : Plain o) (hp : Placed T p)
    (hdirs : ∀ a, T p = some a → a.body = .dir → a.xattrs = []) :
    Triple (Shows · T) (layerFile calls (absPath []) (absPath p) (fileHeader name o) (fileData o) st)
      (fun st' fs => st' = st.withDir (fileHeader name o) ∧
        Shows fs ((clearFor T p o).set p (tarred o))) NoFail := by
  have hsrc : layerSource calls (fileHeader name o) (fileData o) st =
      pure (fileHeader name o, fileData o) := by
    rw [layerSource, if_neg]
    exact fun h => headerType_ne_link o.body h.1
  unfold layerFile
  rw [hsrc]
  refine (clearPath_spec name hp).bind fun _ => ?_
  exact (createTarFile_spec name ho (placed_clearFor hp) (fits_clearFor hdirs)).bind fun _ =>
    Triple.pure _ fun _ h => ⟨rfl, h⟩

/-! ## The loop over entries -/

/-- A round of the loop for an entry that is no AUFS metadata. -/
theorem unpackLayerLoop_cons {e : Entry} {es : List Entry} {st : LayerState} {T' : FileMap}
    {I : LayerState → Prop} {Q : Nat → Fs → Prop} (hname : e.hdr.cleaned.name = joinSlash p)
    (hp : Placed T p) (hmeta : hasPrefix (joinSlash p) ".wh..wh.".toList = false)
    (hentry : Triple (Shows · T)
      (layerEntry calls (absPath []) e.hdr.cleaned e.data
        { st with size := st.size + e.hdr.cleaned.size })
      (fun st' fs => I st' ∧ Shows fs T') NoFail)
    (hrest : ∀ st', I st' → Triple (Shows · T') (unpackLayerLoop calls (absPath []) es st') Q NoFail) :
    Triple (Shows · T) (unpackLayerLoop calls (absPath []) (e :: es) st) Q NoFail := by
  rw [unpackLayerLoop]
  simp only [layerRound, hname, hmeta, Bool.false_eq_true, if_false]
  refine (ensureParent_root hp 0o600).bind fun _ => hentry.bind fun st' fs h => ?_
  exact hrest st' h.1 fs h.2

/-- The entry of a file, cleaned. -/
theorem tarEntry_cleaned (hp : AllProper p) (h0 : p ≠ []) (o : Obj) :
    (tarEntry (joinSlash p) o).hdr.cleaned = fileHeader (joinSlash p) o := by
  have h := clean_canonicalTarName hp h0 (o.body = .dir)
  simp only [tarEntry, Header.cleaned, fileHeader, h]

/-- A name that does not begin like a whiteout. -/
def NoWhiteout (n : Str) : Prop := hasPrefix n whPrefix = false

instance (n : Str) : Decidable (NoWhiteout n) := inferInstanceAs (Decidable (_ = false))

theorem layerEntry_file (st : LayerState) (ho : Plain o) (hp : Placed T p)
    (hwh : ∀ n ∈ p, NoWhiteout n) (hdirs : ∀ a, T p = some a → a.body = .dir → a.xattrs = []) :
    Triple (Shows · T) (layerEntry calls (absPath []) (fileHeader (joinSlash p) o) (fileData o) st)
      (fun st' fs => st' = st.withDir (fileHeader (joinSlash p) o) ∧
        Shows fs ((clearFor T p o).set p (tarred o))) NoFail := by
  have hbase : hasPrefix (base (absPath p)) ".wh.".toList = false := by
    obtain ⟨ds, n, rfl, hds, hn⟩ := hp.exists_snoc
    rw [base_absPath_snoc hds hn]
    exact hwh n (by simp)
  unfold layerEntry
  rw [show (fileHeader (joinSlash p) o).name = joinSlash p from rfl, entryPath_root hp.proper hp.ne_nil]
  show Triple _ (if hasPrefix (base (absPath p)) ".wh.".toList = true then _ else _) _ _
  rw [hbase]
  exact layerFile_spec (joinSlash p) st ho hp hdirs

/-- The entry of a file is not taken for AUFS metadata. -/
theorem file_not_metadata (hp : ∀ n ∈ p, NoWhiteout n) (h0 : p ≠ []) :
    hasPrefix (joinSlash p) ".wh..wh.".toList = false := by
  cases p with
  | nil => exact absurd rfl h0
  | cons m r =>
    rw [hasPrefix_joinSlash r (by decide), Bool.eq_false_iff]
    intro hpre
    have hwh : hasPrefix m whPrefix := by
      rw [hasPrefix, isPrefixOf_iff_prefix] at hpre ⊢
      exact List.IsPrefix.trans (by decide) hpre
    rw [hp m (by simp)] at hwh
    cases hwh

/-- Nor is a whiteout, since the name it marks is no whiteout itself. -/
theorem whiteout_not_metadata (hds : ∀ m ∈ ds, NoWhiteout m) (hn : NoWhiteout n) :
    hasPrefix (joinSlash (ds ++ [whPrefix ++ n])) ".wh..wh.".toList = false := by
  cases ds with
  | nil =>
    rw [nil_append, joinSlash_singleton, Bool.eq_false_iff]
    intro hpre
    have hwh : hasPrefix n whPrefix := by
      rw [hasPrefix, isPrefixOf_iff_prefix] at hpre ⊢
      exact (prefix_append_right_inj whPrefix).mp hpre
    rw [hn] at hwh
    cases hwh
  | cons m r =>
    rw [cons_append, hasPrefix_joinSlash _ (by decide)]
    have h := file_not_metadata (p := [m]) (by simpa using hds m (by simp)) (by simp)
    rwa [joinSlash_singleton] at h

/-- The whiteout of a deletion has the name of the path with the last element marked. -/
theorem whiteout_name (hds : AllProper ds) (hn : Proper n)
    (now : Time) : (whiteout now ⟨ds ++ [n], .delete⟩).hdr.cleaned.name =
      joinSlash (ds ++ [whPrefix ++ n]) ∧ Proper (whPrefix ++ n) := by
  have hwn : Proper (whPrefix ++ n) := by
    refine ⟨by simp [whPrefix], by simp [whPrefix, dot], by simp [whPrefix, dotdot], ?_⟩
    · intro h
      rcases mem_append.mp h with h | h
      · revert h; decide
      · exact hn.2.2.2 h
  refine ⟨?_, hwn⟩
  have hall := proper_snoc hds hwn
  have hel : AllElems (ds ++ [whPrefix ++ n]) := fun m hm => (hall m hm).elem
  show clean ((join [dir (absPath (ds ++ [n])), whPrefix ++ base (absPath (ds ++ [n]))]).drop 1) = _
  rw [dir_absPath_snoc hds hn, base_absPath_snoc hds hn, path_child hds hwn]
  exact clean_names (isAbs_joinSlash hel) (comps_joinSlash hel) hall (by simp)

/-- A whiteout clears the path it names. -/
theorem layerEntry_whiteout (hp : Placed T (ds ++ [n])) (now : Time) (st : LayerState) :
    Triple (Shows · T) (layerEntry calls (absPath []) (whiteout now ⟨ds ++ [n], .delete⟩).hdr.cleaned [] st)
      (fun st' fs => st' = st ∧ Shows fs (T.cut (ds ++ [n]))) NoFail := by
  have hds : AllProper ds := (forall_mem_append.mp hp.proper).1
  have hn := hp.proper n (by simp)
  obtain ⟨hname, hwn⟩ := whiteout_name hds hn now
  have hall := proper_snoc hds hwn
  have hbase := base_absPath_snoc hds hwn
  have hmark : hasPrefix (whPrefix ++ n) ".wh.".toList := by
    rw [hasPrefix, isPrefixOf_iff_prefix]
    exact prefix_append ..
  have horig : (whPrefix ++ n).drop 4 = n := rfl
  unfold layerEntry
  rw [hname, entryPath_root hall (by simp)]
  show Triple _ (if hasPrefix (base (absPath (ds ++ [whPrefix ++ n]))) ".wh.".toList
    then _ else _) _ _
  rw [hbase, hmark, if_pos rfl, dir_absPath_snoc hds hwn, horig, path_child hds hn]
  exact (removeAll_spec hp).mapError.bind fun _ => .pure _ fun _ h => ⟨rfl, h⟩

end DockerEngine.Archive
