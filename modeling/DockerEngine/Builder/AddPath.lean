import DockerEngine.Lib.Outcome
import DockerEngine.Lib.UnixFs

/-!
# Sources inside the build context

`checkPathForAddition` of `builder/internals.go`, which ADD and COPY call for each source: the path of the
source is joined to that of the context, the links of both are resolved, and the first must begin with the
second.

The test is one of texts, so that a directory next to the context whose name goes on where that of the
context ends passes it. `checkPathForAddition_inside_iff` says that this is the one way out: every source that
passes is inside the context exactly if there is no such neighbour.

`filepath.EvalSymlinks` is a function of the Go library and given, with what is used of it in `Evaluates`. The
path of a context is absolute, as `ioutil.TempDir` makes it.
-/

namespace DockerEngine.Builder

open Filepath Resolve UnixFs List Fs

/-- How the check fails. -/
inductive CheckErr where
  /-- "%s: no such file or directory". -/
  | noSuchFile (orig : Str)
  /-- "Forbidden path outside the build context: %s (%s)". -/
  | forbidden (orig origPath : Str)
  | other (e : Errno)
  deriving DecidableEq, Repr

/-- An error of the source, by `os.IsNotExist`. -/
def CheckErr.of (orig : Str) (e : Errno) : CheckErr := if e = .enoent then .noSuchFile orig else .other e

/-- `checkPathForAddition`. -/
def checkPathForAddition (fs : Fs) (evalSymlinks : Str → Except Errno Str) (contextPath orig : Str) :
    Except CheckErr Unit :=
  match evalSymlinks (join [contextPath, orig]) with
  | .error e => .error (.of orig e)
  | .ok origPath =>
    match evalSymlinks contextPath with
    | .error e => .error (.other e)
    | .ok contextPath =>
      if !hasPrefix origPath contextPath then .error (.forbidden orig origPath)
      else
        match stat origPath fs with
        | .error e => .error (.of orig e)
        | .ok _ => .ok ()

/-- What is used of `filepath.EvalSymlinks`: a path that it gives for an absolute one is that of the object
found when all links are followed; and a path without links is given for itself, unless it has more names than
paths that can be evaluated. -/
structure Evaluates (fs : Fs) (evalSymlinks : Str → Except Errno Str) : Prop where
  sound : ∀ path q, isAbs path = true → evalSymlinks path = .ok q →
    ∃ k pos links, resolve fs.kindAt .stat k [] (comps path) = .ok (pos, links) ∧ q = absPath pos
  plain : ∀ path ps ns, evalSymlinks path = .ok (absPath ps) → ns.length ≤ ps.length → ns ≠ [] →
    Standing fs.kindAt ns → evalSymlinks (absPath ns) = .ok (absPath ns)

/-- No object but a link stands next to the directory under a name that goes on where its own ends. -/
def Alone (fs : Fs) (dir : List Str) : Prop :=
  ∀ ds n name, dir = ds ++ [n] → n <+: name → n ≠ name → '/' ∉ name →
    ∀ x, fs.kindAt (ds ++ [name]) = some x → ∃ t, x = .symlink t

section Check

variable {fs : Fs} {evalSymlinks : Str → Except Errno Str} {contextPath orig : Str} {dir : List Str}

theorem checkPathForAddition_ok (hdir : evalSymlinks contextPath = .ok (absPath dir)) :
    checkPathForAddition fs evalSymlinks contextPath orig = .ok () ↔
      ∃ origPath x, evalSymlinks (join [contextPath, orig]) = .ok origPath ∧
        absPath dir <+: origPath ∧ stat origPath fs = .ok x := by
  rw [checkPathForAddition, hdir]
  cases evalSymlinks (join [contextPath, orig]) with
  | error e => simp
  | ok origPath =>
    by_cases hpre : hasPrefix origPath (absPath dir)
    · have hpre' : absPath dir <+: origPath := isPrefixOf_iff_prefix.mp hpre
      cases hstat : stat origPath fs with
      | error e => simp [hpre, hstat]
      | ok x => simp [hpre, hpre', hstat]
    · have hpre' : ¬ absPath dir <+: origPath := fun h => hpre (List.isPrefixOf_iff_prefix.mpr h)
      simp [hpre, hpre']

variable {ds : List Str} {n name c : Str}

/-- Joining to an absolute path. -/
theorem join_abs (hc : isAbs c) (s : Str) : join [c, s] = absPath (walk [] (comps c ++ comps s)) := by
  have hne : c ≠ [] := by
    rintro rfl
    cases hc
  have habs : isAbs (joinSlash [c, s]) := by
    obtain ⟨d, t, rfl⟩ := exists_cons_of_ne_nil hne
    exact hc
  have hjoin : join [c, s] = clean (joinSlash [c, s]) := by
    rw [join, dropWhile_cons_of_neg (by simpa using hne)]
  rw [hjoin, clean_rooted habs, comps_joinSlash_any, flatMap_cons, flatMap_singleton]

/-- A path that begins with the text of another has its names but the last, and one that begins with that. -/
theorem absPath_prefix {ps : List Str} (hds : ∀ m ∈ ds, '/' ∉ m) (hn : Proper n)
    (hps : ∀ m ∈ ps, '/' ∉ m) (h : absPath (ds ++ [n]) <+: absPath ps) :
    ∃ name rest, ps = ds ++ name :: rest ∧ n <+: name := by
  have htext : joinSlash (ds ++ [n]) <+: joinSlash ps := (cons_prefix_cons.mp h).2
  clear h
  induction ds generalizing ps with
  | nil =>
    rw [nil_append, joinSlash_singleton] at htext
    cases ps with
    | nil => exact absurd (prefix_nil.mp htext) hn.1
    | cons p ps =>
      have hpre := hasPrefix_joinSlash (c := p) ps hn.2.2.2
      rw [hasPrefix, isPrefixOf_iff_prefix.mpr htext] at hpre
      exact ⟨p, ps, rfl, isPrefixOf_iff_prefix.mp hpre.symm⟩
  | cons d ds ih =>
    obtain ⟨t, ht⟩ := htext
    rw [cons_append, joinSlash_cons (by simp), append_assoc, cons_append] at ht
    cases ps with
    | nil =>
      simp [joinSlash] at ht
    | cons p ps =>
      have hp := hps p mem_cons_self
      by_cases hps0 : ps = []
      · rw [hps0, joinSlash_singleton] at ht
        exact absurd (ht ▸ by simp) hp
      rw [joinSlash_cons hps0] at ht
      obtain ⟨rfl, hrest⟩ := Words.append_cons_inj (hds d mem_cons_self) hp ht
      obtain ⟨name, rest, rfl, hpre⟩ := ih (fun m hm => hds m (mem_cons_of_mem d hm))
        (fun m hm => hps m (mem_cons_of_mem d hm)) ⟨t, hrest⟩
      exact ⟨name, rest, rfl, hpre⟩

theorem prefix_absPath (ds : List Str) (h : n <+: name) : absPath (ds ++ [n]) <+: absPath (ds ++ [name]) := by
  refine cons_prefix_cons.mpr ⟨rfl, ?_⟩
  by_cases h0 : ds = []
  · subst h0
    simpa [joinSlash_singleton] using h
  · rw [joinSlash_append h0 (by simp), joinSlash_append h0 (by simp), joinSlash_singleton, joinSlash_singleton]
    exact prefix_append_right_inj _ |>.mpr (cons_prefix_cons.mpr ⟨rfl, h⟩)

/-- A name that goes on where a proper one ends is proper if it is one name. -/
theorem proper_beyond (hn : Proper n) (h : n <+: name) (hslash : '/' ∉ name) : Proper name := by
  obtain ⟨h0, hdot, hdotdot, -⟩ := hn
  refine ⟨fun he => h0 (prefix_nil.mp (he ▸ h)), fun he => ?_, fun he => ?_, hslash⟩
  · rw [he, dot, prefix_cons_iff] at h
    obtain rfl | ⟨t, rfl, ht⟩ := h
    · exact h0 rfl
    · rw [prefix_nil.mp ht] at hdot
      exact hdot rfl
  · rw [he, dotdot, prefix_cons_iff] at h
    obtain rfl | ⟨t, rfl, ht⟩ := h
    · exact h0 rfl
    obtain rfl | ⟨u, rfl, hu⟩ := prefix_cons_iff.mp ht
    · exact hdot rfl
    · rw [prefix_nil.mp hu] at hdotdot
      exact hdotdot rfl

/-- The sources that pass the check are in the context, or below it, exactly if the context is alone. -/
theorem checkPathForAddition_inside_iff (fs : Fs) (evalSymlinks : Str → Except Errno Str)
    (heval : Evaluates fs evalSymlinks) (contextPath : Str) (habs : isAbs contextPath = true) (dir : List Str)
    (hnames : ∀ n ∈ dir, Proper n) (hdir : evalSymlinks contextPath = .ok (absPath dir)) :
    (∀ orig, checkPathForAddition fs evalSymlinks contextPath orig = .ok () →
      ∃ q, evalSymlinks (join [contextPath, orig]) = .ok q ∧ (dir = [] ∨ Below (absPath dir) q)) ↔
      Alone fs dir := by
  have hfound : ∀ {path q}, isAbs path = true → evalSymlinks path = .ok q →
      ∃ pos, q = absPath pos ∧ Standing fs.kindAt pos := by
    intro path q hpath h
    obtain ⟨k, pos, links, hres, rfl⟩ := heval.sound path q hpath h
    exact ⟨pos, rfl, resolve_standing (.nil _) (fun d => mem_comps) hres⟩
  constructor
  · rintro hinside ds n name rfl hpre hne hslash x hx
    by_contra hlink
    push Not at hlink
    -- the neighbour can be named by a source, passes, and is not below the context
    obtain ⟨pos, hpos, hstanding⟩ := hfound habs hdir
    rw [← absPath_injective hnames hstanding.names hpos] at hstanding
    have hn : Proper n := hnames n (by simp)
    have hds : Standing fs.kindAt ds := by simpa using hstanding.up
    -- the neighbour of a standing position stands, if it is no link
    have hsib : Standing fs.kindAt (ds ++ [name]) := by
      refine hds.down (hstanding.dirs ds (prefix_append ..) ?_) (proper_beyond hn hpre hslash) hx hlink
      intro he
      have := congrArg length he
      rw [length_append, length_singleton] at this
      omega
    -- the source climbs to the root first
    obtain ⟨orig, horig⟩ : ∃ orig, join [contextPath, orig] = absPath (ds ++ [name]) := by
      refine ⟨joinSlash (replicate (walk [] (comps contextPath)).length dotdot ++ (ds ++ [name])), ?_⟩
      rw [join_abs habs, comps_joinSlash (climb_elems hsib.names), walk_append, walk_climb _ _ hsib.names,
        Nat.sub_self, take_zero, nil_append]
    have hev : evalSymlinks (join [contextPath, orig]) = .ok (absPath (ds ++ [name])) := by
      rw [horig]
      exact heval.plain _ _ _ hdir (by simp) (by simp) hsib
    obtain ⟨y, hy, -⟩ := hsib.last (by simp)
    have hstat : stat (absPath (ds ++ [name])) fs = .ok y := by
      rw [stat, kindOf, find_absPath hsib.names (by simp), hsib.resolve]
      simp only [Except.map, hy]
    obtain ⟨q, hq, hin⟩ := hinside orig
      ((checkPathForAddition_ok hdir).mpr ⟨_, y, hev, prefix_absPath ds hpre, hstat⟩)
    rw [hev] at hq
    cases hq
    have hbelow := ( below_iff_prefix (by simp) hnames hsib.names).mp (hin.resolve_left (by simp))
    have hlist := hbelow.eq_of_length (by simp)
    exact hne (by simpa using hlist)
  · intro halone orig hcheck
    obtain ⟨q, x, hev, hpre, -⟩ := (checkPathForAddition_ok hdir).mp hcheck
    have hjoin : isAbs (join [contextPath, orig]) = true := by
      rw [join_abs habs]
      rfl
    obtain ⟨pos, rfl, hpos⟩ := hfound hjoin hev
    refine ⟨_, hev, ?_⟩
    obtain rfl | ⟨ds, n, rfl⟩ := eq_nil_or_concat' dir
    · exact .inl rfl
    refine .inr (( below_iff_prefix (by simp) hnames hpos.names).mpr ?_)
    have hn : Proper n := hnames n (by simp)
    obtain ⟨name, rest, rfl, hname⟩ := absPath_prefix (fun m hm => (hnames m (by simp [hm])).2.2.2) hn
      (fun m hm => (hpos.names m hm).2.2.2) hpre
    by_cases heq : n = name
    · rw [heq]
      exact ⟨rest, by simp⟩
    -- a neighbour on the way to the object is a directory or the object itself, and no link
    exfalso
    have hslash : '/' ∉ name := (hpos.names name (by simp)).2.2.2
    have hlink := halone ds n name rfl hname heq hslash
    by_cases hrest : rest = []
    · subst hrest
      obtain ⟨y, hy, hno⟩ := hpos.last (by simp)
      obtain ⟨t, ht⟩ := hlink y hy
      exact hno t ht
    · have hdirAt := hpos.dirs (ds ++ [name]) ⟨rest, by simp⟩ (by simpa using Ne.symm hrest)
      obtain ⟨t, ht⟩ := hlink _ hdirAt
      cases ht

end Check

/-! ### A neighbour of the context -/

/-- Resolution of links as `filepath.EvalSymlinks` does it, for absolute paths. -/
def evalLinks (fs : Fs) (path : Str) : Except Errno Str :=
  if isAbs path then (resolve fs.kindAt .stat 255 [] (comps path)).map fun r => absPath r.1
  else .error .enoent

theorem evaluates_evalLinks (fs : Fs) : Evaluates fs (evalLinks fs) where
  sound path q hpath h := by
    rw [evalLinks, if_pos hpath] at h
    obtain ⟨r, hres, rfl⟩ := Outcome.map_eq_ok h
    exact ⟨255, r.1, r.2, hres, rfl⟩
  plain path ps ns _ _ h0 h := by
    obtain ⟨ds, n, rfl⟩ := (eq_nil_or_concat' ns).resolve_left h0
    rw [evalLinks, if_pos (isAbs_absPath _), comps_absPath_proper h.names, h.resolve]
    rfl

/-- A host with a context `/ctx` that has a file `f`, and another directory. -/
def host (neighbour : Str) : Fs where
  names p := [[], ["ctx".toList], ["ctx".toList, "f".toList], [neighbour]].findIdx? (· = p)
  inodes i := if i = 2 then newObj (.file []) 0 else newObj .dir 0
  next := 4
  cwd := []
  fresh h := by
    obtain ⟨hlt, -⟩ := findIdx?_eq_some_iff_getElem.mp h
    exact hlt

theorem host_alone : Alone (host "data".toList) ["ctx".toList] := by
  intro ds n name hdir hpre hne _ x hx
  obtain ⟨rfl, rfl⟩ : ds = [] ∧ n = "ctx".toList := by
    have hlen : ds.length = 0 := by simpa using (congrArg length hdir).symm
    rw [length_eq_zero_iff] at hlen
    subst hlen
    exact ⟨rfl, by simpa using hdir.symm⟩
  exfalso
  obtain ⟨o, ho, -⟩ := Option.map_eq_some_iff.mp hx
  obtain ⟨i, hi, -⟩ := Option.map_eq_some_iff.mp ho
  obtain ⟨hlt, hname, -⟩ := findIdx?_eq_some_iff_getElem.mp hi
  have hmem := getElem_mem hlt
  rw [of_decide_eq_true hname] at hmem
  have hcases : name = "ctx".toList ∨ name = "data".toList := by simpa using hmem
  obtain rfl | rfl := hcases
  · exact hne rfl
  · revert hpre
    decide

theorem checkPathForAddition_data : ∃ q,
    evalLinks (host "data".toList) (join ["/ctx".toList, "f".toList]) = .ok q ∧
      (["ctx".toList] = [] ∨ Below (absPath ["ctx".toList]) q) :=
  (checkPathForAddition_inside_iff (host "data".toList) _ (evaluates_evalLinks _) "/ctx".toList rfl ["ctx".toList]
    (by simp [Proper, dot, dotdot]) (by decide +kernel)).mpr host_alone "f".toList (by decide +kernel)

theorem checkPathForAddition_outside :
    checkPathForAddition (host "ctx2".toList) (evalLinks (host "ctx2".toList)) "/ctx".toList
      "../ctx2".toList = .ok () ∧
    evalLinks (host "ctx2".toList) "/ctx".toList = .ok "/ctx".toList ∧
    evalLinks (host "ctx2".toList) (join ["/ctx".toList, "../ctx2".toList]) = .ok "/ctx2".toList ∧
    ¬ Below "/ctx".toList "/ctx2".toList := by
  refine ⟨by decide +kernel, by decide +kernel, by decide +kernel, ?_⟩
  rintro (h | h)
  · revert h
    decide
  · revert h
    decide

end DockerEngine.Builder
