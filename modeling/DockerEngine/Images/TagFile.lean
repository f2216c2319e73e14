import DockerEngine.Images.Tags
import DockerEngine.Lib.Trace

/-!
# The tag store and its file

`graph.TagStore` keeps its table in memory and in a file. Each operation reads the file first, changes the
table in memory and writes the file. The file is read into the table that is there, so that a repository
which is not in the file stays. What a reader sees is therefore the file, and what memory has besides
(`TagStore.observed`).

When the file cannot be written the operation fails, and memory has the change already. The next reader
takes it back if the repository is in the file, and sees it if it is not: `failed_unchanged_iff`, over runs
of calls.

Reading the file succeeds. The graph does not change. What `SetLoad` prints about a tag that moves is left
out.
-/

namespace DockerEngine.Images

open Filepath Trace List Proc Repositories

/-! ## Digests -/

/-- `\+[a-zA-Z0-9]+:[A-Fa-f0-9]` at the beginning. -/
def beginsWithSum : Str → Bool
  | '+' :: s =>
    match s.dropWhile Char.isAlphanum with
    | ':' :: c :: _ => (s.head?.any Char.isAlphanum) && isDigestChar c
    | _ => false
  | _ => false

/-- `TarsumRegexp` at the beginning: the version may be left out. -/
def beginsWithTarsum (s : Str) : Bool :=
  "tarsum".toList.isPrefixOf s &&
    match s.drop "tarsum".toList.length with
    | [] => false
    | c :: rest => beginsWithSum (c :: rest) ||
      (c != '\n' && (rest.head?.any fun c => c.isDigit || c.isLower) &&
        beginsWithSum (rest.dropWhile fun c => c.isDigit || c.isLower))

/-- The algorithms of `digest.Validate`. -/
def digestAlgorithms : List Str := ["sha256".toList, "sha384".toList, "sha512".toList]

/-- `digest.ParseDigest`. A tarsum may stand anywhere in the text. -/
def parseDigest (digest : Str) : Bool :=
  digest.tails.any beginsWithTarsum ||
    (validDigest digest && digestAlgorithms.contains (digest.takeWhile fun c => c ≠ ':'))

example : parseDigest "tarsum.v1+sha256:0f".toList = true ∧ parseDigest "md5:0f".toList = false := by decide

/-! ## The store -/

/-- The errors of the operations. -/
inductive TagErr where
  | lookup (e : GetErr)
  /-- "Repository name can't be empty". -/
  | emptyRepository
  /-- "'scratch' is a reserved name". -/
  | scratch
  /-- `ErrTagInvalidFormat`. -/
  | invalidTag (name : Str)
  /-- "digest can't be empty", or the error of `ParseDigest`. -/
  | invalidDigest (digest : Str)
  /-- "Conflict: Tag " + tag + " is already set to image " + old + ", if you want to replace it, please use -f
  option". -/
  | conflictTag (tag old : Str)
  /-- "Conflict: Digest " + digest + " is already set to image " + old. -/
  | conflictDigest (digest old : Str)
  | noSuchRepository (e : NoSuchRepository)
  /-- The error of writing the file. -/
  | save
  deriving DecidableEq, Repr

/-- `TagStore`: the table in memory and the one in the file. -/
structure TagStore where
  memory : Repositories
  file : Repositories

variable (t : Repositories)

namespace Repositories

/-- A JSON object is decoded into a map that is there: its keys are overwritten, the others stay. -/
def decodeInto (file memory : Repositories) : Repositories where
  refs := file.refs ++ memory.refs.filter fun r => ¬ file.exists_ r.repo
  nodup := by
    rw [map_append, nodup_append']
    refine ⟨file.nodup, memory.nodup.sublist (filter_sublist.map _), ?_⟩
    intro key hfile hmemory
    obtain ⟨r, hr, rfl⟩ := mem_map.mp hfile
    obtain ⟨r', hr', hkey⟩ := mem_map.mp hmemory
    have hnot := (mem_filter.mp hr').2
    rw [decide_eq_true_iff] at hnot
    apply hnot
    exact any_eq_true.mpr ⟨r, hr, by simpa using (Prod.ext_iff.mp hkey).1.symm⟩

/-- `repo[tag] = id`, where the repository is made if there is none. -/
def set (t : Repositories) (r : Ref) : Repositories where
  refs := r :: t.refs.filter fun r' => ¬ (r'.repo = r.repo ∧ r'.tag = r.tag)
  nodup := by
    rw [map_cons, nodup_cons]
    refine ⟨fun hmem => ?_, t.nodup.sublist (filter_sublist.map _)⟩
    obtain ⟨r', hr', hkey⟩ := mem_map.mp hmem
    have hnot := (mem_filter.mp hr').2
    rw [decide_eq_true_iff] at hnot
    exact hnot (Prod.ext_iff.mp hkey)

theorem mem_set (r r' : Ref) :
    r' ∈ (t.set r).refs ↔ r' = r ∨ (r' ∈ t.refs ∧ ¬ (r'.repo = r.repo ∧ r'.tag = r.tag)) := by
  show r' ∈ r :: t.refs.filter _ ↔ _
  rw [mem_cons, mem_filter, decide_eq_true_iff]

/-- A reference that has its name alone is added. -/
theorem mem_set_of_unique {r : Ref} (h : ∀ r' ∈ t.refs, r'.repo = r.repo → r'.tag = r.tag → r' = r) (r' : Ref) :
    r' ∈ (t.set r).refs ↔ r' ∈ t.refs ∨ r' = r := by
  rw [mem_set, or_comm]
  refine ⟨fun h => h.imp_left And.left, fun hmem => hmem.elim (fun hr' => ?_) .inr⟩
  by_cases hkey : r'.repo = r.repo ∧ r'.tag = r.tag
  · exact .inr (h r' hr' hkey.1 hkey.2)
  · exact .inl ⟨hr', hkey⟩

/-- `store.Repositories[repoName][tag]`. -/
def find (t : Repositories) (repoName tag : Str) : Option Str :=
  (t.refs.find? fun r => r.repo = repoName ∧ r.tag = tag).map Ref.id

end Repositories

namespace TagStore

/-- `reload`. -/
def reload : Proc TagStore TagErr Unit := fun s =>
  (.ok (), { s with memory := s.file.decodeInto s.memory })

/-- `save`, which writes the file or fails. -/
def save (writes : Bool) : Proc TagStore TagErr Unit := fun s =>
  if writes then (.ok (), { s with file := s.memory }) else (.error .save, s)

/-- An operation on the table in memory. -/
def onMemory {α ε : Type} (m : Proc Repositories ε α) : Proc TagStore ε α := fun s =>
  ((m s.memory).1, { s with memory := (m s.memory).2 })

/-- The table is changed and written. -/
def update (writes : Bool) (f : Repositories → Repositories) : Proc TagStore TagErr Unit := do
  onMemory fun t => (.ok (), f t)
  save writes

/-- `validateRepoName`. -/
def validateRepoName (name : Str) : Proc TagStore TagErr Unit :=
  if name = [] then fail .emptyRepository
  else if name = "scratch".toList then fail .scratch
  else pure ()

section Operations

variable (N : Naming) (g : Graph)

/-- `Get`: the references of the repository. -/
def get (repoName : Str) : Proc TagStore TagErr (List Ref) := do
  reload
  read fun s => s.memory.refs.filter fun r => r.repo = N.normalizeLocalName repoName

/-- `LookupImage`, which gets the repository first. -/
def lookupImage (name : Str) : Proc TagStore TagErr Image := do
  reload
  let found ← read fun s => s.memory.lookupImage N g name
  match found with
  | .error e => fail (.lookup e)
  | .ok img => pure img

/-- What `SetLoad` and `SetDigest` have in common: the reference is refused or not, and so is its change from
the id it has to the one of the image. -/
def setRef (writes : Bool) (repoName ref imageName : Str) (refused : Option TagErr)
    (conflict : Option Str → Str → Option TagErr) : Proc TagStore TagErr Unit := do
  let img ← lookupImage N g imageName
  validateRepoName repoName
  match refused with
  | some e => fail e
  | none => do
    reload
    let old ← read fun s => s.memory.find (N.normalizeLocalName repoName) ref
    match conflict old img.id with
    | some e => fail e
    | none => update writes fun t => t.set ⟨N.normalizeLocalName repoName, ref, img.id⟩

/-- Whether `SetLoad` refuses a tag. What is no tag may be a digest. -/
def refusedTag (tag : Str) : Option TagErr :=
  if validTagName tag || parseDigest tag then none else some (.invalidTag tag)

/-- Whether `SetLoad` refuses to move a tag. -/
def tagConflict (force : Bool) (tag : Str) (old : Option Str) (_ : Str) : Option TagErr :=
  if force then none else old.map (.conflictTag tag)

/-- `SetLoad`. -/
def setLoad (writes : Bool) (repoName tag imageName : Str) (force : Bool) : Proc TagStore TagErr Unit :=
  let tag := Repositories.orDefault tag
  setRef N g writes repoName tag imageName (refusedTag tag) (tagConflict force tag)

/-- Whether `SetDigest` refuses a digest. -/
def refusedDigest (digest : Str) : Option TagErr :=
  if digest ≠ [] && parseDigest digest then none else some (.invalidDigest digest)

/-- Whether `SetDigest` refuses to move a digest. -/
def digestConflict (digest : Str) (old : Option Str) (id : Str) : Option TagErr :=
  (old.filter fun oldID => oldID ≠ id).map (.conflictDigest digest)

/-- `SetDigest`. -/
def setDigest (writes : Bool) (repoName digest imageName : Str) : Proc TagStore TagErr Unit :=
  setRef N g writes repoName digest imageName (refusedDigest digest) (digestConflict digest)

/-- `Delete`. -/
def delete (writes : Bool) (repoName ref : Str) : Proc TagStore TagErr Bool := do
  reload
  let deleted ← (onMemory (Repositories.delete N repoName ref)).mapError .noSuchRepository
  save writes
  pure deleted

/-- A call. -/
inductive Call where
  | setLoad (repoName tag imageName : Str) (force : Bool)
  | setDigest (repoName digest imageName : Str)
  | delete (repoName ref : Str)
  | get (repoName : Str)
  | lookupImage (name : Str)

/-- The repository that a call may change. -/
def Call.repoName : Call → Str
  | .setLoad repoName _ _ _ => repoName
  | .setDigest repoName _ _ => repoName
  | .delete repoName _ => repoName
  | .get repoName => repoName
  | .lookupImage name => name

/-- A call, without what it returns. -/
def serve (writes : Bool) : Call → Proc TagStore TagErr Unit
  | .setLoad repoName tag imageName force => setLoad N g writes repoName tag imageName force
  | .setDigest repoName digest imageName => setDigest N g writes repoName digest imageName
  | .delete repoName ref => do
    let _ ← delete N writes repoName ref
  | .get repoName => do
    let _ ← get N repoName
  | .lookupImage name => do
    let _ ← lookupImage N g name

/-- The image is there, nothing is refused, and the reference does not lead to the image yet. -/
structure SetsNew (t : Repositories) (repoName ref imageName : Str) (refused : Option TagErr)
    (conflict : Option Str → Str → Option TagErr) (img : Image) : Prop where
  found : t.lookupImage N g imageName = .ok img
  named : repoName ≠ [] ∧ repoName ≠ "scratch".toList
  accepted : refused = none
  free : conflict (t.find (N.normalizeLocalName repoName) ref) img.id = none
  new : ⟨N.normalizeLocalName repoName, ref, img.id⟩ ∉ t.refs

/-- What is asked for is a change of the table: a reference that is not refused and does not lead to the image
yet, or the deletion of one that is there. -/
def Call.AsksForChange (t : Repositories) : Call → Prop
  | .setLoad repoName tag imageName force => ∃ img, SetsNew N g t repoName (orDefault tag) imageName
      (refusedTag (orDefault tag)) (tagConflict force (orDefault tag)) img
  | .setDigest repoName digest imageName =>
    ∃ img, SetsNew N g t repoName digest imageName (refusedDigest digest) (digestConflict digest) img
  | .delete repoName ref => ∃ r ∈ t.refs, r.repo = N.normalizeLocalName repoName ∧ (ref = [] ∨ r.tag = ref)
  | .get _ => False
  | .lookupImage _ => False

/-- The calls that only read. -/
inductive Call.Reads : Call → Prop
  | get (repoName : Str) : Reads (.get repoName)
  | lookupImage (name : Str) : Reads (.lookupImage name)

/-- The store after some calls. -/
def after (calls : List Call) (s : TagStore) : TagStore := calls.foldl (fun s c => (serve N g true c s).2) s

end Operations

/-- The table that a reader sees. -/
def observed (s : TagStore) : Repositories := s.file.decodeInto s.memory

/-- The tables have the same references. -/
def SameRefs (t t' : Repositories) : Prop := ∀ r, r ∈ t'.refs ↔ r ∈ t.refs

/-! ## What is seen -/

section Observed

variable {N : Naming} {g : Graph} {s : TagStore} {t : Repositories} {r : Ref}

theorem mem_observed : r ∈ s.observed.refs ↔ r ∈ s.file.refs ∨ r ∈ s.memory.refs ∧ s.file.exists_ r.repo = false := by
  show r ∈ s.file.refs ++ s.memory.refs.filter _ ↔ _
  rw [mem_append, mem_filter, decide_eq_true_iff, Bool.not_eq_true]

/-- What is in memory and in the file is seen. -/
theorem mem_observed_same : r ∈ (observed ⟨t, t⟩).refs ↔ r ∈ t.refs := by
  rw [mem_observed]
  exact ⟨fun h => h.elim id And.left, .inl⟩

theorem exists_of_mem (h : r ∈ t.refs) : t.exists_ r.repo := any_eq_true.mpr ⟨r, h, by simp⟩

section

variable (s : TagStore)

/-- Reading the file once more changes nothing. -/
theorem observed_reload : observed { s with memory := s.observed } = s.observed := by
  have hfile : (s.file.refs.filter fun r => ¬ s.file.exists_ r.repo) = [] := by
    apply filter_eq_nil_iff.mpr
    intro r hr
    simp [exists_of_mem hr]
  unfold observed Repositories.decodeInto
  congr 1
  dsimp only
  rw [filter_append, hfile, nil_append, filter_filter]
  simp

/-- The store once the file has been read. -/
def fresh : TagStore := { s with memory := s.observed }

theorem observed_fresh : s.fresh.observed = s.observed := observed_reload s

theorem fresh_fresh : s.fresh.fresh = s.fresh := by
  show ({ s.fresh with memory := s.fresh.observed } : TagStore) = s.fresh
  rw [observed_fresh]
  rfl

theorem reload_run : reload s = (.ok (), s.fresh) := rfl

end

theorem lookupImage_run {name : Str} {r : Except GetErr Image} (h : s.observed.lookupImage N g name = r) :
    lookupImage N g name s = (r.mapError .lookup, s.fresh) := by
  rw [lookupImage, bind_run_ok (reload_run s), read_bind_run]
  show (match s.observed.lookupImage N g name with | .error e => _ | .ok img => _ : Proc _ _ _) s.fresh = _
  rw [h]
  cases r <;> rfl

theorem validateRepoName_cases (name : Str) (s : TagStore) :
    ((∃ e, validateRepoName name s = (.error e, s)) ∧ ¬ (name ≠ [] ∧ name ≠ "scratch".toList)) ∨
      (validateRepoName name s = (.ok (), s) ∧ name ≠ [] ∧ name ≠ "scratch".toList) := by
  unfold validateRepoName
  split
  next hnil => exact .inl ⟨⟨_, rfl⟩, fun h => h.1 hnil⟩
  next hne =>
    split
    next hscratch => exact .inl ⟨⟨_, rfl⟩, fun h => h.2 hscratch⟩
    next hok => exact .inr ⟨rfl, hne, hok⟩

end Observed

/-! ## What a call does -/

section Settles

variable {N : Naming} {g : Graph} {s : TagStore} {repo : Str}

/-- The tables differ in one repository at most. -/
def OnlyIn (repo : Str) (t t' : Repositories) : Prop := ∀ r, r.repo ≠ repo → (r ∈ t'.refs ↔ r ∈ t.refs)

/-- The table `t` was put in memory, and it was written or the call failed. -/
def written (writes : Bool) (t : Repositories) (s : TagStore) : Except TagErr Unit × TagStore :=
  if writes then (.ok (), ⟨t, t⟩) else (.error .save, ⟨t, s.file⟩)

/-- **What a call can do**: where a change is asked for or the call comes as far as writing, it changes one
repository of what is seen, and writes that; otherwise it leaves what is seen as it is. -/
def Settles (repo : Str) (s : TagStore) (m : Bool → Proc TagStore TagErr Unit) (change : Prop) : Prop :=
  ((∀ writes, (m writes s).2.observed = s.observed) ∧ ¬ change) ∨
    ∃ t, OnlyIn repo s.observed t ∧ (∀ writes, m writes s = written writes t s) ∧
      (SameRefs s.observed t ↔ ¬ change)

theorem set_onlyIn (t : Repositories) (r : Ref) : OnlyIn r.repo t (t.set r) := by
  intro r' hne
  rw [Repositories.mem_set]
  constructor
  · rintro (rfl | h)
    · exact absurd rfl hne
    · exact h.1
  · exact fun h => .inr ⟨h, fun hkey => hne hkey.1⟩

/-- Setting a reference changes nothing exactly if it is there. -/
theorem set_same (t : Repositories) (r : Ref) : SameRefs t (t.set r) ↔ r ∈ t.refs := by
  constructor
  · exact fun hsame => (hsame r).mp ((mem_set t r r).mpr (.inl rfl))
  · intro hr r'
    rw [mem_set_of_unique t fun r' hr' hrepo htag => inj_on_of_nodup_map t.nodup hr' hr (Prod.ext hrepo htag)]
    exact or_iff_left_of_imp fun heq => heq ▸ hr

variable {img : Image} {imageName repoName : Str}

/-- A reference that is not refused is set and written. -/
theorem setRef_run {ref : Str} {conflict : Option Str → Str → Option TagErr}
    (hfound : s.observed.lookupImage N g imageName = .ok img)
    (hnamed : repoName ≠ [] ∧ repoName ≠ "scratch".toList)
    (hfree : conflict (s.observed.find (N.normalizeLocalName repoName) ref) img.id = none) (writes : Bool) :
    setRef N g writes repoName ref imageName none conflict s =
      written writes (s.observed.set ⟨N.normalizeLocalName repoName, ref, img.id⟩) s := by
  have hrepo : validateRepoName repoName s.fresh = (.ok (), s.fresh) := by
    rw [validateRepoName, if_neg hnamed.1, if_neg hnamed.2]
    rfl
  rw [setRef, bind_run_ok (lookupImage_run hfound), bind_run_ok hrepo]
  dsimp only
  rw [bind_run_ok (reload_run _), fresh_fresh, read_bind_run]
  simp only [fresh, hfree]
  cases writes <;> rfl

theorem setRef_settles (repoName ref imageName : Str) (refused : Option TagErr)
    (conflict : Option Str → Str → Option TagErr) : Settles (N.normalizeLocalName repoName) s
      (fun writes => setRef N g writes repoName ref imageName refused conflict)
      (∃ img, SetsNew N g s.observed repoName ref imageName refused conflict img) := by
  rcases hlookup : s.observed.lookupImage N g imageName with e | img
  · refine .inl ⟨fun writes => ?_, ?_⟩
    · dsimp only
      rw [setRef, bind_run_error (lookupImage_run hlookup)]
      exact observed_fresh s
    · rintro ⟨img, h⟩
      cases hlookup.symm.trans h.found
  have himg := lookupImage_run hlookup
  have hsame : ∀ {img'}, SetsNew N g s.observed repoName ref imageName refused conflict img' → img' = img := by
    intro img' h
    cases hlookup.symm.trans h.found
    rfl
  rcases validateRepoName_cases repoName s.fresh with ⟨⟨e, hrepo⟩, hunnamed⟩ | ⟨hrepo, hnamed⟩
  · refine .inl ⟨fun writes => ?_, fun ⟨_, h⟩ => hunnamed h.named⟩
    dsimp only
    rw [setRef, bind_run_ok himg, bind_run_error hrepo]
    exact observed_fresh s
  cases refused with
  | some e =>
    refine .inl ⟨fun writes => ?_, fun ⟨_, h⟩ => nomatch h.accepted⟩
    dsimp only
    rw [setRef, bind_run_ok himg, bind_run_ok hrepo]
    exact observed_fresh s
  | none =>
    cases hold : conflict (s.observed.find (N.normalizeLocalName repoName) ref) img.id with
    | some e =>
      refine .inl ⟨fun writes => ?_, ?_⟩
      · dsimp only
        rw [setRef, bind_run_ok himg, bind_run_ok hrepo]
        dsimp only
        rw [bind_run_ok (reload_run _), fresh_fresh, read_bind_run]
        simp only [fresh, hold]
        exact observed_fresh s
      · rintro ⟨img', h⟩
        have hfree := h.free
        rw [hsame h, hold] at hfree
        cases hfree
    | none =>
      refine .inr ⟨_, set_onlyIn _ ⟨_, ref, img.id⟩, setRef_run hlookup hnamed hold, ?_⟩
      · rw [set_same]
        constructor
        · rintro hr ⟨img', h⟩
          have hnew := h.new
          rw [hsame h] at hnew
          exact hnew hr
        · intro hnot
          by_contra hr
          exact hnot ⟨img, hlookup, hnamed, rfl, hold, hr⟩

/-- A deletion without the file changes the repository it names, if it does not fail. -/
theorem delete_cases (N : Naming) (repoName ref : Str) (t : Repositories) :
    ((∃ e, Repositories.delete N repoName ref t = (.error e, t)) ∧
        ¬ ∃ r ∈ t.refs, r.repo = N.normalizeLocalName repoName ∧ (ref = [] ∨ r.tag = ref)) ∨
      ∃ b t', Repositories.delete N repoName ref t = (.ok b, t') ∧ ∀ r, r ∈ t'.refs ↔ r ∈ t.refs ∧
        ¬ (r.repo = N.normalizeLocalName repoName ∧ (ref = [] ∨ r.tag = ref)) := by
  unfold Repositories.delete
  dsimp only
  split
  next hnil =>
    refine .inr ⟨_, _, rfl, fun r => ?_⟩
    rw [Repositories.mem_restrict, decide_eq_true_iff]
    simp [hnil]
  next hne =>
    split
    next hnone =>
      refine .inl ⟨⟨_, rfl⟩, ?_⟩
      rintro ⟨r, hr, hrepo, -⟩
      have hsome := exists_of_mem hr
      rw [hrepo, hnone] at hsome
      cases hsome
    next =>
      refine .inr ⟨_, _, rfl, fun r => ?_⟩
      rw [Repositories.mem_restrict, decide_eq_true_iff]
      simp [hne]

theorem delete_settles (repoName ref : Str) :
    Settles (N.normalizeLocalName repoName) s (fun writes => serve N g writes (.delete repoName ref))
      (∃ r ∈ s.observed.refs, r.repo = N.normalizeLocalName repoName ∧ (ref = [] ∨ r.tag = ref)) := by
  rcases delete_cases N repoName ref s.observed with ⟨⟨e, he⟩, hnone⟩ | ⟨b, t, ht, hleft⟩
  · refine .inl ⟨fun writes => ?_, hnone⟩
    have hmemory : (onMemory (Repositories.delete N repoName ref)) s.fresh = (.error e, s.fresh) := by
      rw [onMemory, fresh, he]
    have hrun : delete N writes repoName ref s = (.error (.noSuchRepository e), s.fresh) := by
      rw [delete, bind_run_ok (reload_run s), bind_run_error (mapError_run_error hmemory)]
    dsimp only
    rw [serve, bind_run_error hrun]
    exact observed_fresh s
  · refine .inr ⟨t, fun r hne => ?_, fun writes => ?_, ?_⟩
    · rw [hleft r]
      exact ⟨fun h => h.1, fun h => ⟨h, fun hkey => hne hkey.1⟩⟩
    · have hmemory : (onMemory (Repositories.delete N repoName ref)) s.fresh = (.ok b, ⟨t, s.file⟩) := by
        rw [onMemory, fresh, ht]
      have hrun : delete N writes repoName ref s = (save writes >>= fun _ => pure b) ⟨t, s.file⟩ := by
        rw [delete, bind_run_ok (reload_run s), bind_run_ok (mapError_run_ok hmemory)]
      cases writes with
      | true => exact bind_run_ok hrun
      | false => exact bind_run_error hrun
    · constructor
      · rintro hsame ⟨r, hr, hkey⟩
        exact ((hleft r).mp ((hsame r).mpr hr)).2 hkey
      · intro hnone r
        rw [hleft r]
        exact ⟨fun h => h.1, fun h => ⟨h, fun hkey => hnone ⟨r, h, hkey⟩⟩⟩

/-- A call that only reads leaves what is seen as it is. -/
theorem reads_observed {c : Call} (h : c.Reads) (writes : Bool) (s : TagStore) :
    (serve N g writes c s).2.observed = s.observed := by
  cases h with
  | get repoName =>
    rw [serve]
    exact observed_fresh s
  | lookupImage name =>
    rcases hlookup : s.observed.lookupImage N g name with e | img
    · rw [serve, bind_run_error (lookupImage_run hlookup)]
      exact observed_fresh s
    · rw [serve, bind_run_ok (lookupImage_run hlookup)]
      exact observed_fresh s

theorem serve_settles (N : Naming) (g : Graph) (c : Call) (s : TagStore) :
    Settles (N.normalizeLocalName c.repoName) s (fun writes => serve N g writes c)
      (c.AsksForChange N g s.observed) := by
  cases c with
  | setLoad repoName tag imageName force => exact setRef_settles repoName _ imageName _ _
  | setDigest repoName digest imageName => exact setRef_settles repoName _ imageName _ _
  | delete repoName ref => exact delete_settles repoName ref
  | get repoName => exact .inl ⟨fun writes => reads_observed (.get repoName) writes s, id⟩
  | lookupImage name => exact .inl ⟨fun writes => reads_observed (.lookupImage name) writes s, id⟩

/-- However often the store is read, the same is seen. -/
theorem observed_after {calls : List Call} (h : ∀ c ∈ calls, c.Reads) (s : TagStore) :
    (after N g calls s).observed = s.observed := by
  induction calls generalizing s with
  | nil => rfl
  | cons c calls ih =>
    have hone := @reads_observed N g c (h c mem_cons_self) true s
    exact (ih (forall_mem_cons.mp h).2 _).trans hone

/-- What is seen of a change that was not written: it is taken back if the file has the repository. -/
theorem observed_unwritten {t : Repositories} (honly : OnlyIn repo s.observed t) :
    SameRefs (if s.file.exists_ repo then s.observed else t) (observed ⟨t, s.file⟩) := by
  intro r
  rw [mem_observed]
  dsimp only
  by_cases hr : r.repo = repo
  · subst hr
    cases hfile : s.file.exists_ r.repo with
    | true =>
      rw [if_pos rfl, mem_observed, hfile]
      simp
    | false =>
      have hnot : r ∉ s.file.refs := by
        intro hmem
        rw [exists_of_mem hmem] at hfile
        cases hfile
      simp [hnot]
  · have hsame := honly r hr
    have hseen : (r ∈ s.file.refs ∨ r ∈ t.refs ∧ s.file.exists_ r.repo = false) ↔ r ∈ s.observed.refs := by
      rw [hsame, mem_observed]
      constructor
      · rintro (h | ⟨h | h, -⟩)
        · exact .inl h
        · exact .inl h
        · exact .inr h
      · rintro (h | h)
        · exact .inl h
        · exact .inr ⟨.inr h, h.2⟩
    rw [hseen]
    split
    · exact .rfl
    · exact hsame.symm

end Settles

section

variable (N : Naming) (g : Graph) (s : TagStore) (l : Bool × Call)

/-- One call of a run, with whether the file can be written. -/
def step : Option TagStore := some (serve N g l.1 l.2 s).2

/-- If the call fails, whoever reads after it sees the table from before. -/
def Harmless : Prop :=
  ∀ e s', serve N g l.1 l.2 s = (.error e, s') →
    ∀ calls : List Call, (∀ c ∈ calls, c.Reads) → SameRefs s.observed (after N g calls s').observed

/-- The file can be written, or it has the repository, or no change is asked for. -/
def Covered : Prop :=
  l.1 = true ∨ s.file.exists_ (N.normalizeLocalName l.2.repoName) = true ∨ ¬ l.2.AsksForChange N g s.observed

theorem harmless_iff : Harmless N g s l ↔ Covered N g s l := by
  obtain ⟨writes, c⟩ := l
  have hlater : Harmless N g s (writes, c) ↔
      ∀ e s', serve N g writes c s = (.error e, s') → SameRefs s.observed s'.observed := by
    constructor
    · exact fun hall e s' h => hall e s' h [] nofun
    · intro hsame e s' h calls hcalls
      rw [observed_after hcalls]
      exact hsame e s' h
  rw [hlater]
  rcases serve_settles N g c s with ⟨hstill, hnone⟩ | ⟨t, honly, hrun, hchange⟩
  · refine ⟨fun _ => .inr (.inr hnone), fun _ e s' h => ?_⟩
    have hs' : (serve N g writes c s).2.observed = s.observed := hstill writes
    rw [h] at hs'
    rw [hs']
    exact fun r => .rfl
  · cases writes with
    | true =>
      refine ⟨fun _ => .inl rfl, fun _ e s' h => ?_⟩
      cases (hrun true).symm.trans h
    | false =>
      -- the call fails in writing the file
      have hfails : serve N g false c s = (.error .save, ⟨t, s.file⟩) := hrun false
      have hsame : (∀ e s', serve N g false c s = (.error e, s') → SameRefs s.observed s'.observed) ↔
          SameRefs s.observed (observed ⟨t, s.file⟩) := by
        refine ⟨fun hall => hall _ _ hfails, fun hsame e s' h => ?_⟩
        cases hfails.symm.trans h
        exact hsame
      have hunwritten := observed_unwritten honly
      rw [hsame, Covered, ← hchange]
      dsimp only
      cases hfile : s.file.exists_ (N.normalizeLocalName c.repoName) with
      | true =>
        rw [if_pos hfile] at hunwritten
        exact ⟨fun _ => .inr (.inl rfl), fun _ => hunwritten⟩
      | false =>
        rw [if_neg (by simp [hfile])] at hunwritten
        constructor
        · intro hseen
          exact .inr (.inr fun r => (hunwritten r).symm.trans (hseen r))
        rintro (hfalse | hfalse | hseen)
        · cases hfalse
        · cases hfalse
        · exact fun r => (hunwritten r).trans (hseen r)

end

/-- **When no failed call changes anything**: in a run of calls, each of which finds the file willing or not, the
failed calls leave the table that is seen as it was exactly if each call is covered in the state in which it is
made. -/
theorem failed_unchanged_iff (N : Naming) (g : Graph) (s : TagStore) (calls : List (Bool × Call)) :
    Along (step N g) (Harmless N g) s calls ↔ Along (step N g) (Covered N g) s calls :=
  along_congr (I := fun _ => True) (fun _ _ _ _ _ => trivial) (fun s l _ _ _ => harmless_iff N g s l) trivial

/-- A store with a repository. -/
def webStore : TagStore where
  memory := ⟨[⟨"web".toList, defaultTag, replicate 64 'a'⟩], by decide⟩
  file := ⟨[⟨"web".toList, defaultTag, replicate 64 'a'⟩], by decide⟩

theorem oneImage_ids : ∀ i ∈ [(⟨replicate 64 'a', []⟩ : Image)], validID i.id := by decide

/-- The graph with one image. -/
def oneImage : Graph := ⟨[⟨replicate 64 'a', []⟩], nodup_singleton _, oneImage_ids⟩

/-- A new repository that could not be written is seen by the next reader. -/
theorem failed_setLoad_seen :
    (serve registryNaming oneImage false (.setLoad "db".toList "v1".toList (replicate 64 'a') false) webStore).1 =
        .error .save ∧
      (get registryNaming "db".toList webStore).1 = .ok [] ∧
      (get registryNaming "db".toList (serve registryNaming oneImage false
        (.setLoad "db".toList "v1".toList (replicate 64 'a') false) webStore).2).1 =
          .ok [⟨"db".toList, "v1".toList, List.replicate 64 'a'⟩] := by
  decide +kernel

end TagStore

end DockerEngine.Images
