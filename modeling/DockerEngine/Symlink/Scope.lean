import DockerEngine.Lib.Loop
import DockerEngine.Lib.UnixFs

/-!
# Following symbolic links inside a root: `evalSymlinksInScope`

`pkg/symlink` resolves a path below a root directory as if the root were the root of the file system.
The loop keeps the elements that are left as a string (`path`) and the way it has come as another (`b`),
which may hold `.` and `..` and is cleaned whenever it is used. A round takes one element; a symbolic
link puts its target in front of what is left.

What holds of every call (`evalSymlinksInScope_spec`): it returns after at most 256 rounds, and a path it
returns is clean, is the root or below it, and no part of it below the root names a symbolic link. If
a process chrooted to the root can resolve the path, then the path returned is the one it finds, unless
there were too many links.

The path is cleaned as a text before the loop starts, so `..` after a link goes back to where the link
stands and not to the directory above its target. The last statement is therefore about the cleaned
path; `evalSymlinksInScope_dotdot` shows the difference. It also starts from a resolution that succeeds:
the loop takes `..` after a regular file, which a process does not get past.
-/

namespace DockerEngine.Symlink

open Filepath Resolve UnixFs List Loop Fs

/-! ## The function -/

/-- The errors of `evalSymlinksInScope`. -/
inductive EvalErr where
  /-- "evalSymlinksInScope: " + path + " is not in " + root. -/
  | notIn (path root : Str)
  /-- "evalSymlinksInScope: too many links in " + originalPath. -/
  | tooManyLinks (originalPath : Str)
  /-- An error of a system call. -/
  | os (e : Errno)
  deriving DecidableEq, Repr

/-- The last round that may begin. -/
def maxIter : Nat := 255

/-- The variables of the loop. -/
structure Scan where
  n : Nat
  path : Str
  b : Str
  deriving DecidableEq, Repr

/-- One round of the loop, or the way out of it. -/
def evalStep (fs : Fs) (root originalPath : Str) (st : Scan) : Scan ⊕ Except EvalErr Str :=
  if st.path = [] then .inr (.ok (clean (root ++ clean ('/' :: st.b))))
  else if st.n > maxIter then .inr (.error (.tooManyLinks originalPath))
  else
    let p := st.path.takeWhile (fun c => c ≠ '/')
    let path := (st.path.dropWhile (fun c => c ≠ '/')).drop 1
    if p = [] then .inl ⟨st.n + 1, path, st.b⟩
    else
      let cleanP := clean ('/' :: (st.b ++ p))
      if cleanP = ['/'] then .inl ⟨st.n + 1, path, []⟩
      else
        let fullP := clean (root ++ cleanP)
        match lstat fullP fs with
        | .error .enoent => .inl ⟨st.n + 1, path, st.b ++ p ++ ['/']⟩
        | .error e => .inr (.error (.os e))
        | .ok (.symlink _) =>
          match readlink fullP fs with
          | .error e => .inr (.error (.os e))
          | .ok dest => .inl ⟨st.n + 1, dest ++ '/' :: path, if isAbs dest then [] else st.b⟩
        | .ok _ => .inl ⟨st.n + 1, path, st.b ++ p ++ ['/']⟩

/-- `evalSymlinksInScope`, with a bound on the number of rounds that are looked at. -/
def evalSymlinksInScope (rounds : Nat) (fs : Fs) (path root : Str) : Option (Except EvalErr Str) :=
  let root := clean root
  if path = root then some (.ok path)
  else if hasPrefix path root = false then some (.error (.notIn path root))
  else
    let originalPath := path
    let path := path.drop root.length
    let path := if root = ['/'] then '/' :: path else path
    if hasPrefix path ['/'] = false then some (.error (.notIn path root))
    else run (evalStep fs root originalPath) rounds ⟨0, clean path, []⟩

/-- `filepath.Abs`, from the working directory. -/
def abs (cwd : List Str) (path : Str) : Str :=
  if isAbs path then clean path else join [absPath cwd, path]

/-- `FollowSymlinkInScope`. -/
def followSymlinkInScope (rounds : Nat) (fs : Fs) (path root : Str) : Option (Except EvalErr Str) :=
  evalSymlinksInScope rounds fs (abs fs.cwd path) (abs fs.cwd root)

/-! ## Rounds on elements -/

/-- The elements that are left. -/
def Scan.rest (st : Scan) : List Str := comps st.path

/-- The names from the root to where the loop stands. -/
def Scan.stack (st : Scan) : List Str := walk [] (comps st.b)

/-- The buffer is empty or ends in a separator. -/
def Scan.Tidy (st : Scan) : Prop := st.b = [] ∨ ∃ b, st.b = b ++ ['/']

/-- What a round can do, in terms of elements. -/
inductive Round (fs : Fs) (R : List Str) (originalPath : Str) (st : Scan) :
    Scan ⊕ Except EvalErr Str → Prop
  /-- Nothing is left. -/
  | done (hrest : st.rest = []) :
    Round fs R originalPath st (.inr (.ok (absPath (R ++ st.stack))))
  /-- The last round has been made. -/
  | tooMany (hn : maxIter < st.n) :
    Round fs R originalPath st (.inr (.error (.tooManyLinks originalPath)))
  /-- Between two separators there is nothing. -/
  | skip {st' : Scan} (hn : st.n ≤ maxIter ∧ st'.n = st.n + 1) (htidy : st'.Tidy)
    (hrest : st'.rest = st.rest) (hstack : st'.stack = st.stack) :
    Round fs R originalPath st (.inl st')
  /-- An element is taken. -/
  | move {st' : Scan} {p : Str} {cs : List Str} (hn : st.n ≤ maxIter ∧ st'.n = st.n + 1)
    (htidy : st'.Tidy) (hp : st.rest = p :: cs) (hrest : st'.rest = cs)
    (hstack : st'.stack = walk st.stack [p])
    (hreal : st'.stack = [] ∨ ∀ t, lstat (absPath (R ++ st'.stack)) fs ≠ .ok (.symlink t)) :
    Round fs R originalPath st (.inl st')
  /-- An element is a link. -/
  | follow {st' : Scan} {p t : Str} {cs : List Str} (hn : st.n ≤ maxIter ∧ st'.n = st.n + 1)
    (htidy : st'.Tidy) (hp : st.rest = p :: cs) (hne : walk st.stack [p] ≠ [])
    (hlink : lstat (absPath (R ++ walk st.stack [p])) fs = .ok (.symlink t))
    (hrest : st'.rest = comps t ++ cs) (hstack : st'.stack = if isAbs t then [] else st.stack) :
    Round fs R originalPath st (.inl st')
  /-- An element cannot be looked at. -/
  | fail {p : Str} {cs : List Str} {e : Errno} (hp : st.rest = p :: cs)
    (hne : walk st.stack [p] ≠ [])
    (hfail : lstat (absPath (R ++ walk st.stack [p])) fs = .error e) (he : e ≠ .enoent) :
    Round fs R originalPath st (.inr (.error (.os e)))

section Rounds

variable {fs : Fs} {R : List Str} {originalPath : Str} {st : Scan}

theorem Scan.stack_names (st : Scan) : AllProper st.stack := walk_names (by simp) fun _ => mem_comps

/-- The buffer with an element behind it. -/
theorem Scan.Tidy.comps_append (h : st.Tidy) {p : Str} (h0 : p ≠ []) (hp : '/' ∉ p) :
    comps (st.b ++ p) = comps st.b ++ [p] := by
  rcases h with h | ⟨b, h⟩
  · rw [h, nil_append, comps_nil, nil_append, comps_elem h0 hp]
  · rw [h, append_assoc, singleton_append, comps_append_slash, comps_elem h0 hp,
      comps_append_sep]

/-- **Every round is one of the six kinds.** -/
theorem evalStep_round (hR : AllProper R) (htidy : st.Tidy) {next}
    (h : evalStep fs (absPath R) originalPath st = next) : Round fs R originalPath st next := by
  subst h
  unfold evalStep
  split
  next hpath =>
    have hclean : clean (absPath R ++ clean ('/' :: st.b)) = absPath (R ++ st.stack) := by
      rw [clean_rooted (s := '/' :: st.b) rfl, comps_slash_cons]
      exact clean_append_absPath hR st.stack_names
    rw [hclean]
    apply Round.done
    rw [Scan.rest, hpath]
    rfl
  next =>
    split
    next hn => exact .tooMany hn
    next hn =>
      have hcount : st.n ≤ maxIter ∧ st.n + 1 = st.n + 1 := ⟨by omega, rfl⟩
      have hfirst := comps_first st.path
      have hslash : '/' ∉ st.path.takeWhile (fun c => c ≠ '/') := by
        intro h
        have := mem_takeWhile_imp h
        simp at this
      dsimp only
      generalize st.path.takeWhile (fun c => c ≠ '/') = p at *
      generalize (st.path.dropWhile fun c => c ≠ '/').drop 1 = path at *
      split
      next hp =>
        refine .skip hcount htidy ?_ rfl
        rw [Scan.rest, Scan.rest, hfirst, hp, comps_nil, nil_append]
      next hp =>
        have hrest : st.rest = p :: comps path := by
          rw [Scan.rest, hfirst, comps_elem hp hslash, singleton_append]
        have hS : AllProper (walk st.stack [p]) :=
          walk_names st.stack_names (forall_mem_singleton.mpr ⟨hp, hslash⟩)
        have hcomps : walk [] (comps (st.b ++ p)) = walk st.stack [p] := by
          rw [htidy.comps_append hp hslash, walk_append]
          rfl
        have hcleanP : clean ('/' :: (st.b ++ p)) = absPath (walk st.stack [p]) := by
          rw [clean_rooted (s := '/' :: (st.b ++ p)) rfl, comps_slash_cons, hcomps]
        -- the element is appended to the buffer
        have hpush : ∀ {e : Except Errno Kind},
            lstat (absPath (R ++ walk st.stack [p])) fs = e → (∀ t, e ≠ .ok (.symlink t)) →
            Round fs R originalPath st (.inl ⟨st.n + 1, path, st.b ++ p ++ ['/']⟩) := by
          intro e he hreal
          have hstack : (Scan.mk (st.n + 1) path (st.b ++ p ++ ['/'])).stack = walk st.stack [p] := by
            rw [Scan.stack, comps_append_sep, hcomps]
          refine .move hcount (.inr ⟨st.b ++ p, rfl⟩) hrest rfl hstack (.inr fun t => ?_)
          rw [hstack, he]
          exact hreal t
        rw [hcleanP]
        split
        next htop =>
          have hnil : walk st.stack [p] = [] := absPath_injective hS (by simp) htop
          exact .move hcount (.inl rfl) hrest rfl hnil.symm (.inl rfl)
        next htop =>
          have hne : walk st.stack [p] ≠ [] := fun h => htop (by rw [h]; rfl)
          rw [clean_append_absPath hR hS]
          rcases hl : lstat (absPath (R ++ walk st.stack [p])) fs with e | k
          · cases e with
            | enoent => exact hpush hl nofun
            | _ => exact .fail hrest hne hl nofun
          · cases k with
            | dir => exact hpush hl (by simp)
            | other => exact hpush hl (by simp)
            | symlink t =>
              have hread : readlink (absPath (R ++ walk st.stack [p])) fs = .ok t := by
                simp only [readlink, hl]
              simp only [hread]
              refine .follow hcount ?_ hrest hne hl (comps_append_slash t path) ?_
              · unfold Scan.Tidy
                split
                · exact .inl rfl
                · exact htidy
              · rw [Scan.stack]
                split <;> rfl

/-- A round lowers what is left of the 256. -/
theorem Round.counts {st' : Scan} (h : Round fs R originalPath st (.inl st')) :
    st.n ≤ maxIter ∧ st'.n = st.n + 1 ∧ st'.Tidy := by
  cases h with
  | skip hn htidy => exact ⟨hn.1, hn.2, htidy⟩
  | move hn htidy => exact ⟨hn.1, hn.2, htidy⟩
  | follow hn htidy => exact ⟨hn.1, hn.2, htidy⟩

end Rounds

/-! ## The path returned -/

/-- A path is the root or lies below it. -/
def Under (root path : Str) : Prop :=
  path = root ∨ if root = ['/'] then isAbs path = true else (root ++ ['/']) <+: path

/-- A clean path in the root, no part of which below the root names a symbolic link. -/
structure InScope (fs : Fs) (root r : Str) : Prop where
  isClean : clean r = r
  under : Under root r
  noLinks : ∀ p, clean p = p → Under root p → p ≠ root → Under p r → ∀ t, lstat p fs ≠ .ok (.symlink t)

section Stack

variable {fs : Fs} {R s : List Str} {originalPath : Str}

theorem Under.isAbs {root path : Str} (hroot : isAbs root) (h : Under root path) : isAbs path := by
  rcases h with h | h
  · rwa [h]
  split at h
  · exact h
  obtain ⟨t, rfl⟩ := h
  cases root with
  | nil => cases hroot
  | cons c cs => exact hroot

theorem under_absPath {ds ps : List Str} (hd : AllProper ds) (hp : AllProper ps) :
    Under (absPath ds) (absPath ps) ↔ ds <+: ps := by
  by_cases h0 : ds = []
  · subst h0
    exact iff_of_true (.inr rfl) nil_prefix
  · have hne : absPath ds ≠ ['/'] := fun h => h0 (absPath_injective hd (by simp) h)
    rw [← below_iff_prefix h0 hd hp, Under, if_neg hne, Below]

/-- No name on the way from the root to where the loop stands is a link. -/
def NoLinks (fs : Fs) (R s : List Str) : Prop :=
  ∀ s', s' <+: s → s' ≠ [] → ∀ t, lstat (absPath (R ++ s')) fs ≠ .ok (.symlink t)

theorem NoLinks.nil : NoLinks fs R [] := fun _ hs' hne => absurd (prefix_nil.mp hs') hne

theorem NoLinks.walk (h : NoLinks fs R s) {p : Str} (hp : p ≠ [] ∧ '/' ∉ p)
    (hreal : walk s [p] = [] ∨ ∀ t, lstat (absPath (R ++ walk s [p])) fs ≠ .ok (.symlink t)) :
    NoLinks fs R (walk s [p]) := by
  by_cases hdot : p = dot
  · rw [hdot, walk_dot]
    exact h
  by_cases hdd : p = dotdot
  · rw [hdd, walk_dotdot]
    exact fun _ hpre => h _ (hpre.trans (List.dropLast_prefix s))
  have hproper : AllProper [p] := forall_mem_singleton.mpr ⟨hp.1, hdot, hdd, hp.2⟩
  rw [walk_proper s hproper] at hreal ⊢
  intro s' hs' hne
  rcases prefix_concat_iff.mp hs' with heq | hpre
  · rw [heq]
    exact hreal.resolve_left (by simp)
  · exact h s' hpre hne

theorem Round.noLinks {st st' : Scan} (h : Round fs R originalPath st (.inl st'))
    (hst : NoLinks fs R st.stack) : NoLinks fs R st'.stack := by
  cases h with
  | skip _ _ _ hstack => exact hstack ▸ hst
  | move _ _ hp _ hstack hreal =>
    rw [hstack] at hreal ⊢
    apply hst.walk _ hreal
    apply mem_comps (s := st.path)
    rw [← Scan.rest, hp]
    exact mem_cons_self
  | follow _ _ _ _ _ _ hstack =>
    rw [hstack]
    split
    · exact .nil
    · exact hst

/-- Names below the root with no link among them are a path in scope. -/
theorem NoLinks.inScope (h : NoLinks fs R s) (hR : AllProper R) (hs : AllProper s) :
    InScope fs (absPath R) (absPath (R ++ s)) := by
  have hall : AllProper (R ++ s) := forall_mem_append.mpr ⟨hR, hs⟩
  refine ⟨clean_absPath hall, (under_absPath hR hall).mpr (prefix_append R s), ?_⟩
  intro p hclean hunder hne hpr
  obtain ⟨P, hP, rfl⟩ := exists_absPath (hunder.isAbs (isAbs_absPath R)) hclean
  obtain ⟨s', rfl⟩ := (under_absPath hR hP).mp hunder
  have hpre := (prefix_append_right_inj R).mp ((under_absPath hP hall).mp hpr)
  apply h s' hpre
  rintro rfl
  rw [append_nil] at hne
  exact hne rfl

end Stack

/-! ## A process chrooted to the root -/

variable {out : Except EvalErr Str}

section Chroot

variable {fs : Fs} {R q : List Str} {originalPath : Str}

/-- The tree a process sees whose root is at a position. -/
def chrooted (fs : Fs) (q : List Str) : List Str → Option Kind := fun p => fs.kindAt (q ++ p)

/-- Through the directories of the root, a path leads to what the chrooted process sees. -/
theorem lstat_chrooted (hR : AllProper R) (hq : fs.find .stat (absPath R) = .ok q)
    {ds : List Str} {n : Str} {x : Kind} (hds : AllProper (ds ++ [n]))
    (hdirs : ∀ r, r <+: ds → chrooted fs q r = some .dir) (hx : chrooted fs q (ds ++ [n]) = some x) :
    lstat (absPath (R ++ (ds ++ [n]))) fs = .ok x := by
  have hall : AllProper (R ++ (ds ++ [n])) := forall_mem_append.mpr ⟨hR, hds⟩
  have hn : Proper n := hds n (by simp)
  have hnames : ∀ d ∈ ds, d ≠ dot ∧ d ≠ dotdot := by
    intro d hd
    have hp := hds d (by simp [hd])
    exact ⟨hp.2.1, hp.2.2.1⟩
  -- the root is found, with some links left
  have hfront : ∃ l, resolve fs.kindAt .stat maxLinks [] R = .ok (q, l) := by
    by_cases h0 : R = []
    · subst h0
      have hdot : (resolve fs.kindAt .stat maxLinks [] [dot]).map Prod.fst = .ok q := hq
      obtain ⟨l, hl⟩ := map_fst_eq_ok.mp hdot
      rw [resolve_dot (dir_of_resolve hl)] at hl
      exact ⟨l, hl⟩
    · rw [find_absPath hR h0] at hq
      exact map_fst_eq_ok.mp hq
  obtain ⟨l, hl⟩ := hfront
  have hfind : fs.find .lstat (absPath (R ++ (ds ++ [n]))) = .ok (q ++ (ds ++ [n])) := by
    have hdir : fs.kindAt q = some .dir := by simpa [chrooted] using hdirs [] nil_prefix
    have hlast : fs.kindAt (q ++ ds) = some .dir := hdirs ds (prefix_refl ds)
    have hx' : fs.kindAt ((q ++ ds) ++ [n]) = some x := by rw [append_assoc]; exact hx
    rw [find_absPath hall (by simp), resolve_append .lstat (by simp), hl]
    show (resolve fs.kindAt .lstat l q (ds ++ [n])).map Prod.fst = _
    rw [resolve_dirs hnames hdir fun r _ => hdirs r, ← append_assoc]
    cases x with
    | symlink t =>
      rw [resolve_symlink hlast hn.2.1 hn.2.2.1 hx']
      rfl
    | dir => rw [resolve_step hlast hn.2.1 hn.2.2.1 hx' nofun, resolve_nil]; rfl
    | other => rw [resolve_step hlast hn.2.1 hn.2.2.1 hx' nofun, resolve_nil]; rfl
  have hk : fs.kindAt (q ++ (ds ++ [n])) = some x := hx
  simp only [lstat, kindOf, hfind, hk]

/-- The chrooted process finds `s` from where the loop stands, and the way there leads through
directories. -/
def Leads (fs : Fs) (q s : List Str) (st : Scan) : Prop :=
  (∃ k l, resolve (chrooted fs q) .stat k st.stack st.rest = .ok (s, l)) ∧
    ∀ r, r <+: st.stack → r ≠ st.stack → chrooted fs q r = some .dir

variable {s : List Str} {st : Scan}

/-- Where the loop stands when it takes another element there is a directory, and it got there
through directories. -/
theorem Leads.dirs (h : Leads fs q s st) {p : Str} {cs : List Str} (hp : st.rest = p :: cs) :
    ∀ r, r <+: st.stack → chrooted fs q r = some .dir := by
  intro r hr
  by_cases heq : r = st.stack
  · obtain ⟨k, l, hk⟩ := h.1
    rw [hp] at hk
    rw [heq]
    exact dir_of_resolve hk
  · exact h.2 r hr heq

/-- What the loop sees of its next element. -/
inductive Sight (fs : Fs) (R q s : List Str) (st : Scan) (p : Str) (cs : List Str) : Prop
  /-- It is no link, and the chrooted process goes there too. -/
  | real (k l : Nat) (hres : resolve (chrooted fs q) .stat k (walk st.stack [p]) cs = .ok (s, l))
    (hdirs : ∀ r, r <+: walk st.stack [p] → r ≠ walk st.stack [p] → chrooted fs q r = some .dir)
    (x : Kind) (hx : ∀ t, x ≠ .symlink t)
    (hlstat : walk st.stack [p] = [] ∨ lstat (absPath (R ++ walk st.stack [p])) fs = .ok x)
  /-- It is a link, which the chrooted process follows. -/
  | link (k l : Nat) (t : Str) (hne : walk st.stack [p] ≠ [])
    (hres : resolve (chrooted fs q) .stat k (if isAbs t then [] else st.stack) (comps t ++ cs) = .ok (s, l))
    (hlstat : lstat (absPath (R ++ walk st.stack [p])) fs = .ok (.symlink t))

section

variable (hR : ∀ n ∈ R, Proper n) (hq : fs.find .stat (absPath R) = .ok q)
include hR hq

theorem Leads.sight (h : Leads fs q s st) {p : Str} {cs : List Str} (hp : st.rest = p :: cs) :
    Sight fs R q s st p cs := by
  have hdirs := h.dirs hp
  have helem : p ≠ [] ∧ '/' ∉ p := by
    apply mem_comps (s := st.path)
    rw [← Scan.rest, hp]
    exact mem_cons_self
  obtain ⟨⟨k, l, hk⟩, -⟩ := h
  rw [hp] at hk
  have hhere : chrooted fs q st.stack = some .dir := hdirs st.stack (prefix_refl _)
  -- a directory on the way is seen as one
  have hseen : ∀ S, S <+: st.stack → S = [] ∨ lstat (absPath (R ++ S)) fs = .ok .dir := by
    intro S hS
    rcases eq_nil_or_concat' S with h0 | ⟨ds, n, rfl⟩
    · exact .inl h0
    · refine .inr (lstat_chrooted hR hq (fun m hm => st.stack_names m (hS.subset hm)) ?_ (hdirs _ hS))
      exact fun r hr => hdirs r ((hr.trans (prefix_append ds [n])).trans hS)
  have hback : ∀ S, S <+: st.stack → walk st.stack [p] = S →
      resolve (chrooted fs q) .stat k S cs = .ok (s, l) → Sight fs R q s st p cs := by
    rintro _ hpre rfl hres
    exact .real k l hres (fun r hr _ => hdirs r (hr.trans hpre)) .dir nofun (hseen _ hpre)
  by_cases hdot : p = dot
  · subst hdot
    rw [resolve_dot hhere] at hk
    exact hback _ (prefix_refl _) (walk_dot _) hk
  by_cases hdd : p = dotdot
  · subst hdd
    rw [resolve_dotdot hhere] at hk
    exact hback _ ( dropLast_prefix _) (walk_dotdot _) hk
  have hproper : Proper p := ⟨helem.1, hdot, hdd, helem.2⟩
  have hwalk : walk st.stack [p] = st.stack ++ [p] := walk_proper st.stack (by simpa using hproper)
  have hnames : AllProper (st.stack ++ [p]) := proper_snoc st.stack_names hproper
  rcases hx : chrooted fs q (st.stack ++ [p]) with _ | x
  · rw [resolve_missing hhere hdot hdd hx] at hk
    cases hk
  have hlstat := lstat_chrooted hR hq hnames hdirs hx
  by_cases hlink : ∃ t, x = .symlink t
  · obtain ⟨t, rfl⟩ := hlink
    rw [resolve_symlink hhere hdot hdd hx] at hk
    cases k with
    | zero => cases cs <;> cases hk
    | succ k =>
      refine .link k l t (by simp [hwalk]) ?_ (by rwa [hwalk])
      apply resolve_target
      rw [← hk]
      simp [jump, Mode.stat]
  · have hreal : ∀ t, x ≠ .symlink t := fun t ht => hlink ⟨t, ht⟩
    rw [resolve_step hhere hdot hdd hx hreal] at hk
    refine .real k l (by rwa [hwalk]) ?_ x hreal (.inr (by rwa [hwalk]))
    rw [hwalk]
    intro r hr hne
    exact hdirs r ((prefix_concat_iff.mp hr).resolve_left hne)

/-- A round keeps the loop on the way of the chrooted process. -/
theorem Round.leads {st' : Scan}
    (hround : Round fs R originalPath st (.inl st')) (h : Leads fs q s st) : Leads fs q s st' := by
  cases hround with
  | skip _ _ hrest hstack =>
    unfold Leads
    rw [hrest, hstack]
    exact h
  | move _ _ hp hrest hstack hreal =>
    unfold Leads
    rw [hrest, hstack]
    rw [hstack] at hreal
    cases h.sight hR hq hp with
    | real k l hres hdirs => exact ⟨⟨k, l, hres⟩, hdirs⟩
    | link k l t hne hres hlstat => exact absurd hlstat (hreal.resolve_left hne t)
  | follow _ _ hp hne hlink hrest hstack =>
    have hdirs := h.dirs hp
    unfold Leads
    rw [hrest, hstack]
    cases h.sight hR hq hp with
    | real _ _ _ _ x hx hlstat =>
      rw [hlink] at hlstat
      cases hlstat.resolve_left hne
      exact absurd rfl (hx _)
    | link k l t _ hres hlstat =>
      rw [hlink] at hlstat
      cases hlstat
      refine ⟨⟨k, l, hres⟩, ?_⟩
      split
      · intro r hr hne
        exact absurd (prefix_nil.mp hr) hne
      · exact fun r hr _ => hdirs r hr

/-- Where the chrooted process finds something, the loop leaves with that path or gives up. -/
theorem Round.leaves (hround : Round fs R originalPath st (.inr out)) (h : Leads fs q s st) :
    out = .ok (clean (absPath R ++ absPath s)) ∨ out = .error (.tooManyLinks originalPath) := by
  cases hround with
  | done hrest =>
    obtain ⟨⟨k, l, hk⟩, -⟩ := h
    rw [hrest, resolve_nil] at hk
    cases hk
    rw [clean_append_absPath hR st.stack_names]
    exact .inl rfl
  | tooMany => exact .inr rfl
  | fail hp hne hfail =>
    cases h.sight hR hq hp with
    | real _ _ _ _ x hx hlstat =>
      rw [hfail] at hlstat
      cases hlstat.resolve_left hne
    | link k l t _ hres hlstat =>
      rw [hfail] at hlstat
      cases hlstat

end

end Chroot

/-! ## Every call -/

section Calls

variable {fs : Fs} {R : List Str} {path : Str}

/-- The loop as `evalSymlinksInScope` enters it. -/
def start (R : List Str) (path : Str) : Scan :=
  ⟨0, absPath (walk [] (comps (path.drop (absPath R).length))), []⟩

/-- A call on a path under the root is the loop, unless the path is the root. -/
theorem evalSymlinksInScope_eq (hR : AllProper R) (hpath : Under (absPath R) path)
    (hne : path ≠ absPath R) (k : Nat) : evalSymlinksInScope k fs path (absPath R) =
      run (evalStep fs (absPath R) path) k (start R path) := by
  have hrest : ∀ x : Str, clean ('/' :: x) = absPath (walk [] (comps x)) := by
    intro x
    rw [clean_rooted (s := '/' :: x) rfl, comps_slash_cons]
  unfold evalSymlinksInScope start
  simp only [clean_absPath hR, if_neg hne]
  have hunder := hpath.resolve_left hne
  split at hunder
  next hroot =>
    -- the root of the file system: the separator is put back
    rw [hroot]
    cases path with
    | nil => cases hunder
    | cons c cs =>
      have hc : c = '/' := by simpa [isAbs] using hunder
      subst hc
      simp [hasPrefix, hrest]
  next hroot =>
    obtain ⟨t, rfl⟩ := hunder
    simp [hasPrefix, hroot, hrest, append_assoc, comps_slash_cons]

/-- What the loop keeps. -/
def Scan.Kept (fs : Fs) (R : List Str) (st : Scan) : Prop := st.Tidy ∧ NoLinks fs R st.stack

theorem start_kept : (start R path).Kept fs R := ⟨.inl rfl, .nil⟩

theorem kept_step (hR : AllProper R) (st st' : Scan) (hst : st.Kept fs R)
    (h : evalStep fs (absPath R) path st = .inl st') : st'.Kept fs R := by
  have hround := evalStep_round hR hst.1 h
  exact ⟨hround.counts.2.2, hround.noLinks hst.2⟩

theorem run_returns (hR : AllProper R) :
    ∃ out, run (evalStep fs (absPath R) path) (maxIter + 2) (start R path) = some out := by
  apply Loop.run_returns (fun st => maxIter + 1 - st.n) (kept_step hR) _ start_kept
  · exact Nat.lt_succ_self _
  · intro st st' hst h
    have := (evalStep_round hR hst.1 h).counts
    omega

theorem run_inScope (hR : AllProper R) {k : Nat}
    (h : run (evalStep fs (absPath R) path) k (start R path) = some out) :
    ∀ r, out = .ok r → InScope fs (absPath R) r := by
  refine run_post (fun out => ∀ r, out = .ok r → InScope fs (absPath R) r) (kept_step hR) ?_ start_kept h
  rintro st - hst h r rfl
  cases evalStep_round hR hst.1 h
  exact hst.2.inScope hR st.stack_names

/-- What the loop keeps while the chrooted process finds something. -/
def Scan.Following (fs : Fs) (q s : List Str) (st : Scan) : Prop := st.Tidy ∧ Leads fs q s st

theorem run_chrooted (hR : AllProper R) {q s : List Str} {l links : Nat} (hq : fs.find .stat (absPath R) = .ok q)
    (hs : resolve (chrooted fs q) .stat links [] (start R path).rest = .ok (s, l))
    {k : Nat}
    (h : run (evalStep fs (absPath R) path) k (start R path) = some out) :
    out = .ok (clean (absPath R ++ absPath s)) ∨ out = .error (.tooManyLinks path) := by
  have hstart : (start R path).Following fs q s := by
    refine ⟨.inl rfl, ⟨links, l, hs⟩, ?_⟩
    intro r hr hne
    exact absurd (prefix_nil.mp hr) hne
  apply run_post (fun out => out = .ok (clean (absPath R ++ absPath s)) ∨
    out = .error (.tooManyLinks path)) _ _ hstart h
  · intro st st' hst hstep
    have hround := evalStep_round hR hst.1 hstep
    exact ⟨hround.counts.2.2, hround.leads hR hq hst.2⟩
  · intro st out hst hstep
    exact (evalStep_round hR hst.1 hstep).leaves hR hq hst.2

/-- A path that is not under the root is refused. -/
theorem evalSymlinksInScope_outside (hR : AllProper R) (hpath : ¬ Under (absPath R) path) :
    ∃ e, ∀ k, evalSymlinksInScope k fs path (absPath R) = some (.error e) := by
  have hne : path ≠ absPath R := fun h => hpath (.inl h)
  unfold evalSymlinksInScope
  simp only [clean_absPath hR, if_neg hne]
  by_cases hpre : hasPrefix path (absPath R) = false
  · exact ⟨_, fun _ => if_pos hpre⟩
  simp only [if_neg hpre]
  obtain ⟨t, rfl⟩ : absPath R <+: path := by simpa [hasPrefix] using hpre
  by_cases hroot : absPath R = ['/']
  · refine absurd (.inr ?_) hpath
    rw [if_pos hroot]
    rfl
  simp only [if_neg hroot, drop_left]
  by_cases hslash : hasPrefix t ['/'] = false
  · exact ⟨_, fun _ => if_pos hslash⟩
  · refine absurd (.inr ?_) hpath
    rw [if_neg hroot]
    exact (prefix_append_right_inj _).mpr (by simpa [hasPrefix] using hslash)

theorem evalSymlinksInScope_root (hR : AllProper R) (k : Nat) :
    evalSymlinksInScope k fs (absPath R) (absPath R) = some (.ok (absPath R)) := by
  simp [evalSymlinksInScope, clean_absPath hR]

theorem InScope.root (fs : Fs) (hR : AllProper R) : InScope fs (absPath R) (absPath R) := by
  have h := (@NoLinks.nil fs R).inScope hR (by simp)
  rwa [append_nil] at h

/-- `FollowSymlinkInScope` on any two paths returns, with an error or with a path in scope. -/
theorem followSymlinkInScope_inScope (fs : Fs) (hcwd : AllProper fs.cwd) (path root : Str) :
    ∃ out, (∀ rounds, 257 ≤ rounds → followSymlinkInScope rounds fs path root = some out) ∧
      ∀ r, out = .ok r → InScope fs (abs fs.cwd root) r := by
  have habs : ∃ R, (AllProper R) ∧ abs fs.cwd root = absPath R := by
    unfold abs
    split
    next h => exact ⟨_, walk_names (by simp) fun _ => mem_comps, clean_rooted h⟩
    next => exact ⟨_, walk_names hcwd fun _ => mem_comps, join_absPath hcwd root⟩
  obtain ⟨R, hR, hroot⟩ := habs
  unfold followSymlinkInScope
  rw [hroot]
  generalize abs fs.cwd path = p
  by_cases hunder : Under (absPath R) p
  · by_cases heq : p = absPath R
    · refine ⟨.ok (absPath R), fun rounds _ => ?_, fun r hr => ?_⟩
      · rw [heq, evalSymlinksInScope_root hR]
      · cases hr
        exact .root fs hR
    · obtain ⟨out, hout⟩ := @run_returns fs R p hR
      refine ⟨out, fun rounds hk => ?_, run_inScope hR hout⟩
      rw [evalSymlinksInScope_eq hR hunder heq]
      exact run_mono hk hout
  · obtain ⟨e, he⟩ := @evalSymlinksInScope_outside fs R p hR hunder
    exact ⟨.error e, fun rounds _ => he rounds, nofun⟩

/-- **What every call returns.** On a clean absolute root and a path under it the loop returns within
256 rounds, and a path it returns is clean, is the root or below it, and has no link among its parts
below the root. If a process chrooted to the root, which follows as many links as it likes, finds
something at the cleaned path, the call returns the path to it, or there were too many links. -/
theorem evalSymlinksInScope_spec (fs : Fs) {root path : Str} (habs : isAbs root = true)
    (hclean : clean root = root) (hpath : Under root path) :
    ∃ out, (∀ rounds, 257 ≤ rounds → evalSymlinksInScope rounds fs path root = some out) ∧
      (∀ r, out = .ok r → InScope fs root r) ∧
      ∀ q links s l, fs.find .stat root = .ok q →
        resolve (chrooted fs q) .stat links [] (walk [] (comps (path.drop root.length))) = .ok (s, l) →
        out = .ok (clean (root ++ absPath s)) ∨ out = .error (.tooManyLinks path) := by
  obtain ⟨R, hR, rfl⟩ := exists_absPath habs hclean
  by_cases hroot : path = absPath R
  · subst hroot
    refine ⟨.ok (absPath R), fun rounds _ => evalSymlinksInScope_root hR rounds, fun r hr => ?_,
      fun q links s l _ hs => .inl ?_⟩
    · cases hr
      exact .root fs hR
    · rw [drop_length, comps_nil, walk_nil, resolve_nil] at hs
      cases hs
      rw [clean_append_absPath hR (by simp), append_nil]
  · obtain ⟨out, hout⟩ := @run_returns fs R path hR
    refine ⟨out, fun rounds hk => ?_, run_inScope hR hout, fun q links s l hq hs => ?_⟩
    · rw [evalSymlinksInScope_eq hR hpath hroot]
      exact run_mono hk hout
    · rw [← comps_absPath_proper (walk_names (by simp) fun _ => mem_comps)] at hs
      exact run_chrooted hR hq hs hout

end Calls

/-! ### A root with links in it -/

/-- A root `/r` with two directories, two files of one name, a link to a directory and a link whose
target goes up from a file. -/
def jailTree : List (List Str × Body) :=
  [([], .dir), (["r".toList], .dir), (["r".toList, "c".toList], .file []),
    (["r".toList, "d".toList], .dir), (["r".toList, "d".toList, "c".toList], .file []),
    (["r".toList, "d".toList, "e".toList], .dir),
    (["r".toList, "l".toList], .symlink "d/e".toList),
    (["r".toList, "m".toList], .symlink "c/../d".toList)]

/-- The file system with the tree in it. -/
def jail : Fs where
  names p := jailTree.findIdx? fun x => x.1 = p
  inodes i := newObj ((jailTree.map Prod.snd).getD i .dir) 0o755
  next := jailTree.length
  cwd := []
  fresh := by
    intro p i h
    exact (findIdx?_eq_some_iff_getElem.mp h).choose

theorem followSymlinkInScope_jail : ∃ out, followSymlinkInScope 257 jail "r/m".toList "r".toList = some out ∧
    ∀ r, out = .ok r → InScope jail (abs [] "r".toList) r :=
  (followSymlinkInScope_inScope jail nofun _ _).imp fun _ h => ⟨h.1 257 le_rfl, h.2⟩

/-- A link is followed to where the chrooted process gets. -/
theorem evalSymlinksInScope_link : Under "/r".toList "/r/l".toList ∧
    evalSymlinksInScope 257 jail "/r/l".toList "/r".toList = some (.ok "/r/d/e".toList) ∧
    InScope jail "/r".toList "/r/d/e".toList ∧
    resolve (chrooted jail ["r".toList]) .stat 40 [] ["l".toList] = .ok (["d".toList, "e".toList], 39) := by
  have hpath : Under "/r".toList "/r/l".toList := .inr (by decide)
  obtain ⟨out, hout, hscope, hchroot⟩ :=
    @evalSymlinksInScope_spec jail "/r".toList "/r/l".toList (by decide) (by decide) hpath
  have hrun : evalSymlinksInScope 257 jail "/r/l".toList "/r".toList = some (.ok "/r/d/e".toList) := by
    decide
  have hsees : resolve (chrooted jail ["r".toList]) .stat 40 [] ["l".toList] =
      .ok (["d".toList, "e".toList], 39) := by decide
  have hok : out = .ok "/r/d/e".toList := by
    rcases hchroot ["r".toList] 40 _ _ (by decide) hsees with h | h
    · exact h
    · rw [hout 257 (by omega), h] at hrun
      cases hrun
  exact ⟨hpath, hrun, hscope _ hok, hsees⟩

/-- Two paths on which everything exists. `..` after a link is taken from the text, so the call finds
`/r/c` where the chrooted process finds `/r/d/c`; and the call goes up from a file, where the process
is stopped. -/
theorem evalSymlinksInScope_dotdot :
    evalSymlinksInScope 257 jail "/r/l/../c".toList "/r".toList = some (.ok "/r/c".toList) ∧
      resolve (chrooted jail ["r".toList]) .stat 40 [] (comps "/l/../c".toList) = .ok (["d".toList, "c".toList], 39) ∧
      "/r/c".toList ≠ clean ("/r".toList ++ absPath ["d".toList, "c".toList]) ∧
      evalSymlinksInScope 257 jail "/r/m".toList "/r".toList = some (.ok "/r/d".toList) ∧
      resolve (chrooted jail ["r".toList]) .stat 40 [] (comps "/m".toList) = .error .enotdir := by
  decide +kernel

end DockerEngine.Symlink
