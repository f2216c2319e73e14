import DockerEngine.Archive.Unpack

/-!
# Which link entries are refused

`createTarFile` puts the target of a link entry together as a path, below the destination for a hard link and
below the directory of the link for a symbolic one, and refuses the entry if the text of that path does not
begin with the text of the destination. A path that goes on where the text of the destination ends, but not
with a separator, lies beside the destination and passes: `/d2` begins with `/d`.

`createTarFile_confines_iff` says that this is the one way out: an entry whose target is neither the
destination nor below it is refused, with nothing created, exactly if its target does not lie beside the
destination in this sense. Nothing is said of where the path of a link leads in the file system; that is a
matter of `Archive.Confine`.
-/

namespace DockerEngine.Archive

open Filepath Resolve UnixFs List Proc

/-- `breakoutError`. -/
def Err.isBreakout : Err → Bool
  | .outside _ _ | .invalidHardlink _ _ | .invalidSymlink _ _ => true
  | _ => false

/-- The path that `createTarFile` compares with the destination, if the entry is a link. -/
def linkTarget (path extractDir : Str) (hdr : Header) : Option Str :=
  match hdr.typeflag with
  | .link => some (join [extractDir, hdr.linkname])
  | .symlink => some (join [dir path, hdr.linkname])
  | _ => none

/-- The text of the path goes on where that of the directory ends, and not with a separator. -/
def Beside (d p : Str) : Prop := ∃ c t, c ≠ '/' ∧ p = d ++ c :: t

theorem beside_iff {d p : Str} : Beside d p ↔ d <+: p ∧ ¬ Below d p := by
  constructor
  · rintro ⟨c, t, hc, rfl⟩
    refine ⟨prefix_append d _, ?_⟩
    rintro (heq | hbelow)
    · exact cons_ne_nil c t (append_right_eq_self.mp heq)
    · obtain ⟨u, hu⟩ := hbelow
      rw [append_assoc] at hu
      exact hc (cons.inj (append_cancel_left hu)).1.symm
  · rintro ⟨⟨t, rfl⟩, hbelow⟩
    cases t with
    | nil => exact (hbelow (.inl (append_nil d))).elim
    | cons c t =>
      refine ⟨c, t, ?_, rfl⟩
      rintro rfl
      exact hbelow (.inr ⟨t, by simp⟩)

section Create

variable {path extractDir : Str} {hdr : Header} {data : Bytes} {lchown : Bool} {opts : Option (Nat × Nat)}
  {fs : Fs} {x : Err}

/-- A system call fails with its own error. -/
theorem sys_avoids (hx : x.isBreakout) {α : Type} (m : Proc Fs Errno α) :
    Avoids x (fun _ => True) (sys m) fun _ _ => True := by
  refine .mapError (E := fun _ => True) (fun e he => ?_) fun s _ => ⟨fun _ _ _ => trivial, fun _ _ _ => trivial⟩
  subst he
  cases hx

section

variable (hx : x.isBreakout)
include hx

/-- A call that made an object fails with no `breakoutError` any more. -/
theorem made_avoids (m : Proc Fs Errno Unit) :
    Avoids x (fun _ => True) (do
      if ← (do sys m; pure true) then setTarAttrs path hdr lchown opts else pure ()) fun _ _ => True := by
  refine .bind (Q := fun _ _ => True) ((sys_avoids hx m).bind fun _ => .pure _ fun _ _ => trivial) fun b => ?_
  cases b
  · exact .pure _ fun _ _ => trivial
  · exact setTarAttrs_of_calls path (Avoids.compositional x) (fun _ _ _ => sys_avoids hx _) hdr lchown opts

end

/-- A link whose target does not begin with the destination is refused, and nothing is created. -/
theorem createTarFile_refuses {target : Str} (h : linkTarget path extractDir hdr = some target)
    (hstart : ¬ extractDir <+: target) :
    ∃ e, e.isBreakout ∧ createTarFile path extractDir hdr data lchown opts fs = (.error e, fs) := by
  unfold linkTarget at h
  split at h
  next htype =>
    cases h
    refine ⟨.invalidHardlink (join [extractDir, hdr.linkname]) hdr.linkname, rfl, ?_⟩
    apply bind_run_error
    simp only [createTarObject, htype, hasPrefix, isPrefixOf_iff_prefix, if_neg hstart]
    rfl
  next htype =>
    cases h
    refine ⟨.invalidSymlink path hdr.linkname, rfl, ?_⟩
    apply bind_run_error
    simp only [createTarObject, htype, hasPrefix, isPrefixOf_iff_prefix, if_neg hstart]
    rfl
  next => cases h

/-- A link whose target begins with the destination is not refused. -/
theorem createTarFile_accepts {target : Str} (h : linkTarget path extractDir hdr = some target)
    (hstart : extractDir <+: target) {e : Err} (he : e.isBreakout) :
    (createTarFile path extractDir hdr data lchown opts fs).1 ≠ .error e := by
  unfold linkTarget at h
  split at h
  next htype =>
    cases h
    have hobject : createTarObject path extractDir hdr data =
        (do sys (Fs.link (join [extractDir, hdr.linkname]) path); pure true) := by
      simp [createTarObject, htype, hasPrefix, if_pos hstart]
    rw [createTarFile, hobject]
    exact (made_avoids he _ fs trivial).1
  next htype =>
    cases h
    have hobject : createTarObject path extractDir hdr data = (do sys (Fs.symlink hdr.linkname path); pure true) := by
      simp [createTarObject, htype, hasPrefix, if_pos hstart]
    rw [createTarFile, hobject]
    exact (made_avoids he _ fs trivial).1
  next => cases h

end Create

/-- A link entry whose target is neither the destination nor below it is refused with a `breakoutError`, and
nothing is created. -/
def Confines (path extractDir : Str) (hdr : Header) (data : Bytes) (lchown : Bool) (opts : Option (Nat × Nat))
    (fs : Fs) : Prop :=
  ∀ target ∈ linkTarget path extractDir hdr, ¬ Below extractDir target →
    ∃ e, e.isBreakout = true ∧ createTarFile path extractDir hdr data lchown opts fs = (.error e, fs)

/-- **Link targets are confined** exactly if they do not lie beside the destination. -/
theorem createTarFile_confines_iff (path extractDir : Str) (hdr : Header) (data : Bytes) (lchown : Bool)
    (opts : Option (Nat × Nat)) (fs : Fs) : Confines path extractDir hdr data lchown opts fs ↔
      ∀ target ∈ linkTarget path extractDir hdr, ¬ Beside extractDir target := by
  constructor
  · intro h target htarget hbeside
    obtain ⟨hstart, hbelow⟩ := beside_iff.mp hbeside
    obtain ⟨e, he, hrun⟩ := h target htarget hbelow
    exact createTarFile_accepts htarget hstart he (congrArg Prod.fst hrun)
  · intro h target htarget hbelow
    refine createTarFile_refuses htarget fun hstart => h target htarget ?_
    exact beside_iff.mpr ⟨hstart, hbelow⟩

/-- A host with the directories `/d` and `/d2`, and a file in the second. -/
def neighbours : Fs where
  names p := if p = [] then some 0 else if p = ["d".toList] then some 1
    else if p = ["d2".toList] then some 2 else if p = ["d2".toList, "f".toList] then some 3 else none
  inodes i := if i = 3 then Fs.newObj (.file [1]) 0o600 else Fs.newObj .dir 0o755
  next := 4
  cwd := []
  fresh := by
    intro p i h
    grind

/-- A hard link to a file outside. -/
def outwards : Header := ⟨"x".toList, .link, 0o644, 0, 0, 0, none, none, "../d2/f".toList, [], 0, 0⟩

/-- The file beside the destination gets a name in it. -/
theorem createTarFile_beside :
    linkTarget "/d/x".toList "/d".toList outwards = some "/d2/f".toList ∧ ¬ Below "/d".toList "/d2/f".toList ∧
      (createTarFile "/d/x".toList "/d".toList outwards [] true none neighbours).1 = .ok () ∧
      (createTarFile "/d/x".toList "/d".toList outwards [] true none neighbours).2.names
        ["d".toList, "x".toList] = neighbours.names ["d2".toList, "f".toList] := by
  refine ⟨by decide, by decide, by decide, by decide⟩

end DockerEngine.Archive
