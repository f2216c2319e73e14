import DockerEngine.Lib.Filepath
import DockerEngine.Lib.Glob
import DockerEngine.Lib.NameTree

/-!
# Exclude patterns of an archive

`TarWithOptions` walks over a directory and leaves out the files that its exclude patterns match
(`pkg/fileutils`). A pattern that starts with an exclamation mark is an exception: it takes files in again. If
there is no exception, a directory that is left out is not entered.

That shortcut is right exactly if no file below such a directory would be taken (`archive_agrees_iff`). Two
things stand against it. `CleanPatterns` looks for exceptions before it cleans a pattern, `OptimizedMatches` looks
for them in the cleaned one, and a pattern may get its exclamation mark by being cleaned. And a pattern with a
character class may match a directory with more or fewer elements than it has itself, while the files below are
compared with as many elements as the pattern has.

The walk is that of the single include `.`. What `addTarFile` writes for a file, and its errors, which are only
logged, are left out: the archive is the list of the names it is called with.
-/

namespace DockerEngine.Archive.Exclude

open Filepath Glob List NameTree

/-! ## Patterns -/

/-- `unicode.IsSpace`. -/
def isSpace (c : Char) : Bool :=
  c.toNat ∈ [9, 10, 11, 12, 13, 32, 0x85, 0xA0, 0x1680, 0x2028, 0x2029, 0x202F, 0x205F, 0x3000] ||
    (0x2000 ≤ c.toNat && c.toNat ≤ 0x200A)

/-- `strings.TrimSpace`. -/
def trimSpace (s : Str) : Str := (s.dropWhile isSpace).rdropWhile isSpace

/-- `exclusion`. -/
def exclusion (p : Str) : Bool := p.head? == some '!'

/-- A pattern without its exclamation mark. -/
def body (p : Str) : Str := if exclusion p then p.tail else p

inductive PatternErr where
  /-- "Illegal exclusion pattern: !" -/
  | illegalExclusion
  /-- `filepath.ErrBadPattern` -/
  | badPattern
  deriving DecidableEq, Repr

/-- What `CleanPatterns` returns. -/
structure Cleaned where
  patterns : List Str
  dirs : List (List Str)
  exceptions : Bool
  deriving DecidableEq, Repr

/-- `CleanPatterns`. -/
def cleanPatterns : List Str → Except PatternErr Cleaned
  | [] => .ok ⟨[], [], false⟩
  | p :: ps =>
    if trimSpace p = [] then cleanPatterns ps
    else if exclusion (trimSpace p) ∧ (trimSpace p).length = 1 then .error .illegalExclusion
    else
      (cleanPatterns ps).map fun c =>
        ⟨clean (trimSpace p) :: c.patterns, (body (clean (trimSpace p))).splitOn '/' :: c.dirs,
          exclusion (trimSpace p) || c.exceptions⟩

/-- The loop of `OptimizedMatches`; `matched` is what the patterns before have made of the file. -/
def matchLoop (file : Str) (matched : Bool) : List Str → List (List Str) → Except PatternErr Bool
  | [], _ => .ok matched
  | p :: ps, dirs =>
    let parentPath := dir file
    let parentPathDirs := parentPath.splitOn '/'
    let patDirs := dirs.headD []
    match globMatch (body p) file with
    | none => .error .badPattern
    | some hit =>
      let hit := hit || (parentPath ≠ dot && patDirs.length ≤ parentPathDirs.length &&
        globMatch (joinSlash patDirs) (joinSlash (parentPathDirs.take patDirs.length)) == some true)
      matchLoop file (if hit then !exclusion p else matched) ps dirs.tail

/-- `OptimizedMatches`. -/
def optimizedMatches (file : Str) (patterns : List Str) (dirs : List (List Str)) : Except PatternErr Bool :=
  matchLoop file false patterns dirs

/-- `Matches`. -/
def fileMatches (file : Str) (patterns : List Str) : Except PatternErr Bool :=
  if clean file = dot then .ok false
  else
    match cleanPatterns patterns with
    | .error e => .error e
    | .ok c => optimizedMatches (clean file) c.patterns c.dirs

/-! ## The walk -/

/-- The options of `TarWithOptions` besides the patterns and the include. -/
structure TarOptions where
  includeSourceDir : Bool
  rebaseName : Str

/-- The files that were seen, and the names that were added to the archive, the last first. -/
structure Tar where
  seen : List Str
  names : List Str

/-- What the callback of `filepath.Walk` returns. -/
inductive Visit where
  | next
  | skipDir
  | stop (e : PatternErr)

/-- `filepath.Rel(srcPath, filePath)` of the file at the given names. -/
def relPath (pos : List Str) : Str := if pos = [] then dot else joinSlash pos

/-- `strings.Replace(s, ".", new, 1)`. -/
def replaceDot (new : Str) : Str → Str
  | [] => []
  | c :: s => if c = '.' then new ++ s else c :: replaceDot new s

/-- The callback of the walk. -/
def visit (o : TarOptions) (c : Cleaned) (pos : List Str) (isDir : Bool) (st : Tar) : Visit × Tar :=
  if !o.includeSourceDir ∧ relPath pos = dot ∧ isDir then (.next, st)
  else
    let file := if o.includeSourceDir ∧ relPath pos ≠ dot then dot ++ '/' :: relPath pos else relPath pos
    -- the include itself is never skipped
    match if dot ≠ file then optimizedMatches file c.patterns c.dirs else .ok false with
    | .error e => (.stop e, st)
    | .ok true => (if !c.exceptions ∧ isDir then .skipDir else .next, st)
    | .ok false =>
      if file ∈ st.seen then (.next, st)
      else
        let name := if o.rebaseName = [] then file
          else replaceDot (if o.rebaseName = ['/'] then [] else o.rebaseName) file
        (.next, ⟨file :: st.seen, name :: st.names⟩)

/-- A source tree; the data of a file is if it is a directory. -/
abbrev Source := NameTree Str Bool

mutual

/-- `filepath.Walk` from the file at `pos`; the first result is if the walk was stopped. -/
def walkTree (o : TarOptions) (c : Cleaned) (pos : List Str) : Source → Tar → Bool × Tar
  | .node isDir kids, st =>
    match visit o c pos isDir st with
    | (.stop _, st') => (true, st')
    | (.skipDir, st') => (false, st')
    | (.next, st') => if isDir then walkKids o c pos kids st' else (false, st')

/-- The files of a directory, one after the other. -/
def walkKids (o : TarOptions) (c : Cleaned) (pos : List Str) : List (Str × Source) → Tar → Bool × Tar
  | [], st => (false, st)
  | (n, t) :: kids, st =>
    match walkTree o c (pos ++ [n]) t st with
    | (true, st') => (true, st')
    | (false, st') => walkKids o c pos kids st'

end

/-- `TarWithOptions` with the single include `.`: the names in the archive, the last first. -/
def tarWithOptions (o : TarOptions) (patterns : List Str) (t : Source) : Except PatternErr (List Str) :=
  (cleanPatterns patterns).map fun c => (walkTree o c [] t ⟨[], []⟩).2.names

/-- The options that are not given. -/
def noOptions : TarOptions := ⟨false, []⟩

/-! ## What a pattern matches -/

/-- The number of elements of a pattern. -/
def parts (q : Str) : Nat := (q.splitOn '/').length

/-- The pattern matches the file at `pos`, or as many of the directories above it as the pattern has elements. -/
def Hits (q : Str) (pos : List Str) : Prop :=
  globMatch q (joinSlash pos) = some true ∨
    parts q < pos.length ∧ globMatch q (joinSlash (pos.take (parts q))) = some true

instance (q : Str) (pos : List Str) : Decidable (Hits q pos) := inferInstanceAs (Decidable (_ ∨ _ ∧ _))

/-- What patterns, read from the first to the last, make of a file. -/
def excluded (ps : List Str) (pos : List Str) (matched : Bool) : Bool :=
  ps.foldl (fun m p => if Hits (body p) pos then !exclusion p else m) matched

theorem parts_pos (q : Str) : 0 < parts q := length_pos_of_ne_nil (splitOn_ne_nil _ _)

/-- The names on the way to a file. -/
def ProperPath (pos : List Str) : Prop := pos ≠ [] ∧ ∀ n ∈ pos, Proper n

variable {pos : List Str}

section

variable (h : ProperPath pos)
include h

theorem ProperPath.splitOn : (joinSlash pos).splitOn '/' = pos :=
  splitOn_intercalate '/' (fun n hn => (h.2 n hn).2.2.2) h.1

theorem ProperPath.ne_dot : joinSlash pos ≠ dot := by
  intro hd
  have hc := comps_joinSlash fun n hn => (h.2 n hn).elem
  rw [hd, comps_dot] at hc
  exact (h.2 dot (by simp [← hc])).2.1 rfl

theorem ProperPath.clean : clean (joinSlash pos) = joinSlash pos :=
  clean_names (isAbs_joinSlash fun n hn => (h.2 n hn).elem) (comps_joinSlash fun n hn => (h.2 n hn).elem) h.2 h.1

theorem ProperPath.relPath : relPath pos = joinSlash pos := if_neg h.1

theorem ProperPath.dir : dir (joinSlash pos) = Exclude.relPath pos.dropLast := by
  obtain ⟨ds, n, rfl⟩ : ∃ ds n, pos = ds ++ [n] := ⟨_, _, (dropLast_append_getLast h.1).symm⟩
  have hds : AllProper ds := (forall_mem_append.mp h.2).1
  have hn : Proper n := h.2 n (by simp)
  rw [dropLast_concat, Exclude.relPath]
  by_cases h0 : ds = []
  · rw [if_pos h0, h0, nil_append, joinSlash_singleton, dir, dropWhile_all hn.elem.2]
    rfl
  rw [if_neg h0, joinSlash_append h0 (by simp), joinSlash_singleton, dir_append_slash _ hn.elem.2]
  refine clean_names ?_ ?_ hds h0
  · have hrel := isAbs_joinSlash fun m hm => (hds m hm).elem
    cases hj : joinSlash ds with
    | nil =>
      have hc := comps_joinSlash fun m hm => (hds m hm).elem
      rw [hj, comps_nil] at hc
      exact (h0 hc.symm).elim
    | cons x xs =>
      rw [hj] at hrel
      simpa [isAbs] using hrel
  · rw [comps_append_sep, comps_joinSlash fun m hm => (hds m hm).elem]

/-- The test of one pattern in the loop. -/
theorem hit_iff {q : Str} {hit : Bool} (hmatch : globMatch q (joinSlash pos) = some hit) :
    (hit || (dir (joinSlash pos) ≠ dot && (q.splitOn '/').length ≤ ((dir (joinSlash pos)).splitOn '/').length &&
      globMatch (joinSlash (q.splitOn '/'))
        (joinSlash (((dir (joinSlash pos)).splitOn '/').take (q.splitOn '/').length)) == some true)) =
      decide (Hits q pos) := by
  have hparts := parts_pos q
  rw [Bool.eq_iff_iff, show joinSlash (q.splitOn '/') = q from intercalate_splitOn '/', h.dir, decide_eq_true_eq, Hits, hmatch]
  by_cases h0 : pos.dropLast = []
  · -- a file at the top has no directory above it
    have hlen : pos.length ≤ 1 := by
      have := congrArg length h0
      simp only [length_dropLast, length_nil] at this
      omega
    have hno : ¬ parts q < pos.length := by omega
    simp [relPath, h0, hno]
  · have hdir : ProperPath pos.dropLast := ⟨h0, fun n hn => h.2 n (dropLast_subset _ hn)⟩
    rw [hdir.relPath, hdir.splitOn]
    have hne := hdir.ne_dot
    have hlen : (q.splitOn '/').length ≤ pos.dropLast.length ↔ parts q < pos.length := by
      rw [length_dropLast, parts] at *
      have := length_pos_of_ne_nil h.1
      omega
    have htake : parts q < pos.length → pos.dropLast.take (q.splitOn '/').length = pos.take (parts q) := by
      intro hlt
      rw [dropLast_eq_take, take_take, parts]
      congr 1
      rw [parts] at hlt
      omega
    simp only [Bool.or_eq_true, Bool.and_eq_true, decide_eq_true_eq, ne_eq, hne, not_false_eq_true, true_and,
      beq_iff_eq, hlen, Option.some.injEq]
    refine or_congr_right (and_congr_right fun hlt => ?_)
    rw [htake hlt]

end

/-- A pattern that can be read. -/
def WellFormed (p : Str) : Prop := readTerms (body p).length (body p) ≠ none

instance (p : Str) : Decidable (WellFormed p) := inferInstanceAs (Decidable (_ ≠ _))

theorem WellFormed.match {p : Str} (h : WellFormed p) (file : Str) : ∃ hit, globMatch (body p) file = some hit := by
  obtain ⟨ts, hts⟩ := Option.ne_none_iff_exists'.mp h
  exact ⟨matchTerms ts file, by rw [globMatch, hts]; rfl⟩

theorem matchLoop_eq {ps : List Str} (hps : ∀ p ∈ ps, WellFormed p) (h : ProperPath pos) (m : Bool) :
    matchLoop (joinSlash pos) m ps (ps.map fun p => (body p).splitOn '/') = .ok (excluded ps pos m) := by
  induction ps generalizing m with
  | nil => rfl
  | cons p ps ih =>
    obtain ⟨hit, hhit⟩ := (hps p mem_cons_self).match (joinSlash pos)
    have hdec := hit_iff h hhit
    simp only [matchLoop, map_cons, headD_cons, tail_cons, hhit]
    rw [hdec, ih (forall_mem_cons.mp hps).2]
    simp only [excluded, foldl_cons, decide_eq_true_eq]

/-! ## Cleaned patterns -/

/-- The patterns that are not empty, as they are written. -/
def written (patterns : List Str) : List Str := (patterns.map trimSpace).filter fun p => p ≠ []

variable {patterns : List Str} {c : Cleaned}

/-- What `CleanPatterns` makes of the patterns. -/
theorem cleanPatterns_eq (h : cleanPatterns patterns = .ok c) :
    c = ⟨(written patterns).map clean, ((written patterns).map clean).map fun p => (body p).splitOn '/',
      (written patterns).any exclusion⟩ := by
  induction patterns generalizing c with
  | nil =>
    cases h
    rfl
  | cons p ps ih =>
    rw [cleanPatterns] at h
    by_cases h0 : trimSpace p = []
    · rw [if_pos h0] at h
      have hw : written (p :: ps) = written ps := by simp [written, h0]
      rw [hw]
      exact ih h
    · rw [if_neg h0] at h
      have hw : written (p :: ps) = trimSpace p :: written ps := by simp [written, h0]
      split at h
      · cases h
      · cases hps : cleanPatterns ps with
        | error e =>
          rw [hps] at h
          cases h
        | ok c' =>
          rw [hps] at h
          cases h
          rw [ih hps, hw]
          rfl

/-! ## What the walk takes -/

/-- A source tree: files have names of their own, fit for a directory, and only directories have files. -/
def Source.Wf (t : Source) : Prop :=
  t.All fun isDir ks => (ks.map Prod.fst).Nodup ∧ (∀ k ∈ ks, Proper k.1) ∧ (ks ≠ [] → isDir = true)

section Walk

variable {ps : List Str} {E : Bool} {pos : List Str}

/-- The patterns and the flag as the walk has them. -/
def cleanedWith (ps : List Str) (E : Bool) : Cleaned := ⟨ps, ps.map fun p => (body p).splitOn '/', E⟩

/-- The file at `r` in the tree at `pos` is taken: it is not excluded, and all directories on the way to it are
entered. -/
def Taken (ps : List Str) (E : Bool) (t : Source) (pos r : List Str) : Prop :=
  t.look r ≠ none ∧ pos ++ r ≠ [] ∧ excluded ps (pos ++ r) false = false ∧
    (E = true ∨ ∀ q, q <+: r → q ≠ r → pos ++ q ≠ [] → excluded ps (pos ++ q) false = false)

/-- The directory at `pos` is entered. -/
def Entered (ps : List Str) (E : Bool) (pos : List Str) : Prop := E = true ∨ pos = [] ∨ excluded ps pos false = false

instance (ps : List Str) (E : Bool) (pos : List Str) : Decidable (Entered ps E pos) :=
  inferInstanceAs (Decidable (_ ∨ _ ∨ _))

theorem taken_nil {t : Source} : Taken ps E t pos [] ↔ pos ≠ [] ∧ excluded ps pos false = false := by
  rw [Taken, look_nil, append_nil]
  constructor
  · rintro ⟨_, hne, hx, _⟩
    exact ⟨hne, hx⟩
  · rintro ⟨hne, hx⟩
    exact ⟨by simp, hne, hx, .inr fun q hq hqne => (hqne (prefix_nil.mp hq)).elim⟩

variable {kids : List (Str × Source)} {isDir : Bool} {st : Tar}

theorem taken_cons {n : Str} {r : List Str} :
    Taken ps E (.node isDir kids) pos (n :: r) ↔
      Entered ps E pos ∧ ∃ k, kids.lookup n = some k ∧ Taken ps E k (pos ++ [n]) r := by
  have hlook : (node isDir kids).look (n :: r) = (kids.lookup n).bind fun k => k.look r := look_cons ..
  have hpos : ∀ q, pos ++ n :: q = pos ++ [n] ++ q := by simp
  rw [Taken, hlook, hpos]
  constructor
  · rintro ⟨hl, hne, hx, hway⟩
    cases hk : kids.lookup n with
    | none =>
      rw [hk] at hl
      exact (hl rfl).elim
    | some k =>
      rw [hk] at hl
      refine ⟨?_, k, rfl, hl, hne, hx, ?_⟩
      · rcases hway with hE | hway
        · exact .inl hE
        by_cases h0 : pos = []
        · exact .inr (.inl h0)
        · have hhere := hway [] nil_prefix (by simp) (by simpa using h0)
          rw [append_nil] at hhere
          exact .inr (.inr hhere)
      · refine hway.imp_right fun hway q hq hqne hqpos => ?_
        rw [← hpos]
        exact hway (n :: q) ((prefix_cons_inj n).mpr hq) (by simpa using hqne) (by simp)
  · rintro ⟨hent, k, hk, hl, hne, hx, hway⟩
    rw [hk]
    refine ⟨hl, hne, hx, ?_⟩
    by_cases hE : E
    · exact .inl hE
    refine .inr fun q hq hqne hqpos => ?_
    cases q with
    | nil =>
      rw [append_nil] at hqpos ⊢
      rcases hent with hent | hent | hent
      · exact (hE hent).elim
      · exact (hqpos hent).elim
      · exact hent
    | cons m q =>
      obtain ⟨rfl, hrest⟩ := cons_prefix_cons.mp hq
      rw [hpos]
      exact hway.resolve_left hE q hrest (by simpa using hqne) (by simp)

/-- What the walk may do with one file: it goes on, and the file is added if it is not excluded. -/
theorem visit_names (hps : ∀ p ∈ ps, WellFormed p) (hn : AllProper pos)
    (hroot : pos = [] → isDir) (hst : st.seen = st.names) :
    ∃ st', (visit noOptions (cleanedWith ps E) pos isDir st =
        (if isDir ∧ ¬ Entered ps E pos then .skipDir else .next, st')) ∧ st'.seen = st'.names ∧
      ∀ f, f ∈ st'.names ↔ f ∈ st.names ∨ pos ≠ [] ∧ excluded ps pos false = false ∧ f = joinSlash pos := by
  by_cases h0 : pos = []
  · refine ⟨st, ?_, hst, by simp [h0]⟩
    simp [visit, noOptions, relPath, h0, hroot h0, Entered]
  have h : ProperPath pos := ⟨h0, hn⟩
  have hloop : optimizedMatches (joinSlash pos) (cleanedWith ps E).patterns (cleanedWith ps E).dirs =
      .ok (excluded ps pos false) := matchLoop_eq hps h false
  have hne := h.ne_dot
  cases hx : excluded ps pos false with
  | true =>
    refine ⟨st, ?_, hst, by simp⟩
    have hflag : (cleanedWith ps E).exceptions = E := rfl
    simp [visit, noOptions, h.relPath, hne, Ne.symm hne, hloop, hx, Entered, h0, hflag, and_comm]
  | false =>
    by_cases hseen : joinSlash pos ∈ st.seen
    · refine ⟨st, ?_, hst, fun f => ?_⟩
      · simp [visit, noOptions, h.relPath, hne, Ne.symm hne, hloop, hx, Entered, hseen]
      rw [hst] at hseen
      constructor
      · exact .inl
      · rintro (hf | ⟨_, _, rfl⟩)
        · exact hf
        · exact hseen
    · refine ⟨⟨joinSlash pos :: st.seen, joinSlash pos :: st.names⟩, ?_, by rw [hst], fun f => ?_⟩
      · simp [visit, noOptions, h.relPath, hne, Ne.symm hne, hloop, hx, Entered, hseen]
      · simp [h0, or_comm]

/-- What holds after a walk over the tree at `pos`. -/
def Walked (ps : List Str) (E : Bool) (t : Source) (pos : List Str) (st : Tar) (res : Bool × Tar) : Prop :=
  res.1 = false ∧ res.2.seen = res.2.names ∧
    ∀ f, f ∈ res.2.names ↔ f ∈ st.names ∨ ∃ r, Taken ps E t pos r ∧ f = joinSlash (pos ++ r)

theorem walkKids_names
    (ih : ∀ k ∈ kids, ∀ st : Tar, st.seen = st.names →
      Walked ps E k.2 (pos ++ [k.1]) st (walkTree noOptions (cleanedWith ps E) (pos ++ [k.1]) k.2 st)) (hst : st.seen = st.names) :
    (walkKids noOptions (cleanedWith ps E) pos kids st).1 = false ∧
      (walkKids noOptions (cleanedWith ps E) pos kids st).2.seen =
        (walkKids noOptions (cleanedWith ps E) pos kids st).2.names ∧
      ∀ f, f ∈ (walkKids noOptions (cleanedWith ps E) pos kids st).2.names ↔
        f ∈ st.names ∨ ∃ k ∈ kids, ∃ r, Taken ps E k.2 (pos ++ [k.1]) r ∧ f = joinSlash (pos ++ [k.1] ++ r) := by
  induction kids generalizing st with
  | nil => simp [walkKids, hst]
  | cons k kids ihk =>
    obtain ⟨n, t⟩ := k
    obtain ⟨hstop, hseen, hnames⟩ := ih (n, t) mem_cons_self st hst
    rw [walkKids]
    rcases hres : walkTree noOptions (cleanedWith ps E) (pos ++ [n]) t st with ⟨stop, st'⟩
    rw [hres] at hstop hseen hnames
    cases hstop
    obtain ⟨h₁, h₂, h₃⟩ := ihk (forall_mem_cons.mp ih).2 hseen
    refine ⟨h₁, h₂, fun f => (h₃ f).trans ?_⟩
    rw [hnames f]
    simp only [exists_mem_cons_iff, or_assoc]

/-- The archive after a walk: what was in it, and the files that are taken. -/
theorem walkTree_names (hps : ∀ p ∈ ps, WellFormed p) (t : Source) : t.Wf → ∀ pos : List Str,
    (AllProper pos) → (pos = [] → t.val) → ∀ st : Tar, st.seen = st.names →
    Walked ps E t pos st (walkTree noOptions (cleanedWith ps E) pos t st) := by
  induction t using induct with
  | node isDir kids ih =>
  intro hwf pos hn hroot st hst
  obtain ⟨hnd, hproper, hdir⟩ := hwf.here
  have hrootDir : pos = [] → isDir := hroot
  obtain ⟨st', hvisit, hst', hnames⟩ := visit_names (E := E) hps hn hrootDir hst
  have hbelow : ∀ k ∈ kids, ∀ st : Tar, st.seen = st.names →
      Walked ps E k.2 (pos ++ [k.1]) st (walkTree noOptions (cleanedWith ps E) (pos ++ [k.1]) k.2 st) :=
    fun k hk => ih k hk (hwf.kids k hk) (pos ++ [k.1]) (proper_snoc hn (hproper k hk)) (by simp)
  have hkids := walkKids_names hbelow hst'
  have hmem : ∀ f, (∃ r, Taken ps E (.node isDir kids) pos r ∧ f = joinSlash (pos ++ r)) ↔
      (pos ≠ [] ∧ excluded ps pos false = false ∧ f = joinSlash pos) ∨
        (Entered ps E pos ∧ ∃ k ∈ kids, ∃ r, Taken ps E k.2 (pos ++ [k.1]) r ∧
          f = joinSlash (pos ++ [k.1] ++ r)) := by
    intro f
    constructor
    · rintro ⟨r, hr, rfl⟩
      cases r with
      | nil =>
        rw [taken_nil] at hr
        exact .inl ⟨hr.1, hr.2, by rw [append_nil]⟩
      | cons n r =>
        obtain ⟨hent, k, hk, htaken⟩ := taken_cons.mp hr
        exact .inr ⟨hent, (n, k), mem_of_lookup hk, r, htaken, by simp⟩
    · rintro (⟨hne, hx, rfl⟩ | ⟨hent, k, hk, r, htaken, rfl⟩)
      · exact ⟨[], taken_nil.mpr ⟨hne, hx⟩, by rw [append_nil]⟩
      · exact ⟨k.1 :: r, taken_cons.mpr ⟨hent, k.2, lookup_of_mem hnd hk, htaken⟩, by simp⟩
  rw [walkTree, hvisit]
  by_cases hent : Entered ps E pos
  · simp only [hent, not_true_eq_false, and_false, if_false]
    by_cases hd : isDir
    · rw [if_pos hd]
      refine ⟨hkids.1, hkids.2.1, fun f => ?_⟩
      rw [hkids.2.2 f, hnames f, hmem f, or_assoc, and_iff_right hent]
    · -- a file that is no directory has no files
      rw [if_neg hd]
      have hnil : kids = [] := by
        by_contra hne
        exact hd (hdir hne)
      refine ⟨rfl, hst', fun f => ?_⟩
      rw [hnames f, hmem f, hnil]
      simp
  · have hfiles : ∀ f, f ∈ st'.names ↔ f ∈ st.names ∨
        ∃ r, Taken ps E (.node isDir kids) pos r ∧ f = joinSlash (pos ++ r) := by
      intro f
      rw [hnames f, hmem f]
      simp [hent]
    cases isDir with
    | true =>
      simp only [hent, not_false_eq_true, and_self, if_true]
      exact ⟨rfl, hst', hfiles⟩
    | false =>
      simp only [Bool.false_eq_true, false_and, if_false]
      exact ⟨rfl, hst', hfiles⟩

end Walk

/-! ## The archive and the patterns -/

variable {t : Source}

/-- The names on the way to a file of the tree. -/
theorem Source.Wf.proper (h : t.Wf) {r : List Str} (hr : t.look r ≠ none) : AllProper r :=
  All.names (All.mono (fun _ _ h => h.2.1) h) hr

/-- The archive has exactly the files, other than the source itself, that `Matches` does not exclude. -/
def Agrees (patterns : List Str) (t : Source) : Prop :=
  ∃ out, tarWithOptions noOptions patterns t = .ok out ∧
    ∀ f, f ∈ out ↔ ∃ pos, pos ≠ [] ∧ t.look pos ≠ none ∧ f = joinSlash pos ∧ fileMatches f patterns = .ok false

/-- The flag is set if a cleaned pattern is taken for an exception. -/
def FlagRight (patterns : List Str) : Prop :=
  ∀ c, cleanPatterns patterns = .ok c → (∃ p ∈ c.patterns, exclusion p = true) → c.exceptions = true

section

variable (hc : cleanPatterns patterns = .ok c) (hps : ∀ p ∈ c.patterns, WellFormed p)
include hc hps

theorem fileMatches_eq (h : ProperPath pos) :
    fileMatches (joinSlash pos) patterns = .ok (excluded c.patterns pos false) := by
  have hdirs : c.dirs = c.patterns.map fun p => (body p).splitOn '/' := by rw [cleanPatterns_eq hc]
  rw [fileMatches, h.clean, if_neg h.ne_dot, hc]
  simp only [hdirs]
  exact matchLoop_eq hps h false

/-- The archive agrees with the patterns if every file that is not excluded is reached. -/
theorem agrees_iff (hwf : t.Wf) (hroot : t.val) :
    Agrees patterns t ↔ ∀ r, r ≠ [] → t.look r ≠ none → excluded c.patterns r false = false →
      c.exceptions ∨ ∀ q, q <+: r → q ≠ r → q ≠ [] → excluded c.patterns q false = false := by
  have hcleaned : c = cleanedWith c.patterns c.exceptions := by
    rw [cleanPatterns_eq hc]
    rfl
  obtain ⟨_, _, hnames⟩ := walkTree_names (E := c.exceptions) hps t hwf [] (by simp) (fun _ => hroot) ⟨[], []⟩ rfl
  rw [← hcleaned] at hnames
  have hproper : ∀ r, r ≠ [] → t.look r ≠ none → ProperPath r := fun r hr hl => ⟨hr, hwf.proper hl⟩
  constructor
  · rintro ⟨out, hout, hmem⟩ r hr hl hx
    obtain ⟨c', hc', rfl⟩ : ∃ c', cleanPatterns patterns = .ok c' ∧
        (walkTree noOptions c' [] t ⟨[], []⟩).2.names = out := by
      rw [tarWithOptions, hc] at hout
      exact ⟨c, hc, Except.ok.inj hout⟩
    rw [hc] at hc'
    cases hc'
    have hin := (hmem (joinSlash r)).mpr ⟨r, hr, hl, rfl, by rw [fileMatches_eq hc hps (hproper r hr hl), hx]⟩
    obtain ⟨r', ⟨hl', hr', _, hway⟩, heq⟩ := ((hnames _).mp hin).resolve_left not_mem_nil
    rw [nil_append] at hr' heq
    have hsame : r = r' := by
      rw [← (hproper r hr hl).splitOn, heq, (hproper r' hr' hl').splitOn]
    rw [hsame]
    exact hway
  · intro hreach
    refine ⟨(walkTree noOptions c [] t ⟨[], []⟩).2.names, by rw [tarWithOptions, hc]; rfl, fun f => ?_⟩
    rw [hnames f]
    constructor
    · rintro (hf | ⟨r, ⟨hl, hr, hx, _⟩, rfl⟩)
      · cases hf
      · exact ⟨r, hr, hl, rfl, (fileMatches_eq hc hps (hproper r hr hl)).trans (congrArg _ hx)⟩
    · rintro ⟨r, hr, hl, rfl, hm⟩
      rw [fileMatches_eq hc hps (hproper r hr hl)] at hm
      have hx := Except.ok.inj hm
      exact .inr ⟨r, ⟨hl, hr, hx, hreach r hr hl hx⟩, rfl⟩

end

/-! ## When directories may be skipped -/

/-- A pattern that is written as an exception. -/
def HasException (patterns : List Str) : Prop := ∃ p ∈ written patterns, exclusion p = true

/-- A pattern that is an exception once it is cleaned. -/
def BecomesException (patterns : List Str) : Prop := ∃ p ∈ written patterns, exclusion (clean p) = true

/-- What is below a directory that a pattern matches with another number of elements than its own is matched
too. -/
def CoversCrossed (patterns : List Str) (t : Source) : Prop :=
  ∀ d, d ≠ [] → t.look d = some true → ∀ p ∈ written patterns, globMatch (clean p) (joinSlash d) = some true →
    parts (clean p) ≠ d.length → ∀ s, s ≠ [] → t.look (d ++ s) ≠ none →
      ∃ q ∈ written patterns, Hits (clean q) (d ++ s)

/-- Without exceptions a file is excluded if some pattern matches it. -/
theorem excluded_iff {ps : List Str} (hps : ∀ p ∈ ps, exclusion p = false) (pos : List Str) (m : Bool) :
    excluded ps pos m ↔ m ∨ ∃ p ∈ ps, Hits p pos := by
  induction ps generalizing m with
  | nil => simp [excluded]
  | cons p ps ih =>
    have hp : exclusion p = false := hps p mem_cons_self
    have hbody : body p = p := by rw [body, if_neg (by simp [hp])]
    rw [excluded, foldl_cons, hbody, hp]
    refine (ih (forall_mem_cons.mp hps).2 _).trans ?_
    rw [exists_mem_cons_iff]
    by_cases hh : Hits p pos
    · simp [hh]
    · simp [hh]

/-- A pattern that matches a directory matches what is below it, if the directory has as many elements as the
pattern, or is itself below what is matched. -/
theorem Hits.below {q : Str} {d s : List Str} (h : Hits q d) (hs : s ≠ [])
    (hparts : globMatch q (joinSlash d) = some true → parts q = d.length) : Hits q (d ++ s) := by
  have hlen := length_pos_of_ne_nil hs
  rcases h with hm | ⟨hlt, hm⟩
  · refine .inr ⟨?_, ?_⟩
    · rw [length_append, hparts hm]
      omega
    · rw [hparts hm, take_left]
      exact hm
  · refine .inr ⟨?_, ?_⟩
    · rw [length_append]
      omega
    · rw [take_append_of_le_length (Nat.le_of_lt hlt)]
      exact hm

/-- The flag is that of the patterns as they are written. -/
theorem exceptions_iff (hc : cleanPatterns patterns = .ok c) : c.exceptions ↔ HasException patterns := by
  rw [cleanPatterns_eq hc, HasException]
  exact any_eq_true

/-- The flag misses an exception exactly if a pattern becomes one and none is written as one. -/
theorem flagRight_iff (hc : cleanPatterns patterns = .ok c) :
    FlagRight patterns ↔ (BecomesException patterns → HasException patterns) := by
  have hbecomes : (∃ p ∈ c.patterns, exclusion p) ↔ BecomesException patterns := by
    rw [cleanPatterns_eq hc, BecomesException]
    simp
  rw [← hbecomes, ← exceptions_iff hc, FlagRight]
  constructor
  · intro h
    exact h c hc
  intro h c' hc'
  rw [hc] at hc'
  cases hc'
  exact h

/-- Without exceptions the archive agrees with the patterns exactly if those cover what they cross. -/
theorem agrees_iff_covers (hwf : t.Wf) (hroot : t.val)
    (hc : cleanPatterns patterns = .ok c) (hps : ∀ p ∈ c.patterns, WellFormed p)
    (hexc : ¬ HasException patterns) (hbecomes : ¬ BecomesException patterns) :
    Agrees patterns t ↔ CoversCrossed patterns t := by
  have hpatterns : c.patterns = (written patterns).map clean := by rw [cleanPatterns_eq hc]
  have hplain : ∀ p ∈ c.patterns, exclusion p = false := by
    intro p hp
    rw [hpatterns] at hp
    obtain ⟨q, hq, rfl⟩ := mem_map.mp hp
    exact Bool.eq_false_iff.mpr fun he => hbecomes ⟨q, hq, he⟩
  have hhit : ∀ pos, excluded c.patterns pos false ↔ ∃ p ∈ written patterns, Hits (clean p) pos := by
    intro pos
    rw [excluded_iff hplain, hpatterns]
    simp
  have hE : ¬ c.exceptions := fun h => hexc ((exceptions_iff hc).mp h)
  rw [agrees_iff hc hps hwf hroot]
  constructor
  · intro hreach d hd _ p hp hm _ s hs hl
    by_contra hno
    have hx : excluded c.patterns (d ++ s) false = false := Bool.eq_false_iff.mpr fun he => hno ((hhit _).mp he)
    have hway := (hreach (d ++ s) (by simp [hd]) hl hx).resolve_left hE
    have hdx := hway d (prefix_append d s) (by simpa using hs) hd
    rw [(hhit d).mpr ⟨p, hp, .inl hm⟩] at hdx
    cases hdx
  · intro hcover r hr hl hx
    refine .inr fun q hq hqr hq0 => Bool.eq_false_iff.mpr fun he => ?_
    obtain ⟨s, rfl⟩ := hq
    have hs : s ≠ [] := by
      rintro rfl
      exact hqr (append_nil q).symm
    obtain ⟨p, hp, hhits⟩ := (hhit q).mp he
    have hbelow : ∃ p' ∈ written patterns, Hits (clean p') (q ++ s) := by
      by_cases hparts : globMatch (clean p) (joinSlash q) = some true → parts (clean p) = q.length
      · exact ⟨p, hp, hhits.below hs hparts⟩
      -- the pattern crosses elements at a directory of the tree
      rw [Classical.not_imp] at hparts
      obtain ⟨isDir, ks, hdir, hall, hks⟩ := All.above hwf hs hl
      exact hcover q hq0 (by rw [hdir, hall.2.2 hks]) p hp hparts.1 hparts.2 s hs hl
    rw [(hhit _).mpr hbelow] at hx
    cases hx

/-- The shortcut and the flag are right exactly if an exception is written as one, or no pattern becomes one and
what is below a directory that is matched across elements is matched. -/
theorem archive_agrees_iff (patterns : List Str) (c : Cleaned) (t : Source) (hwf : t.Wf) (hroot : t.val = true)
    (hc : cleanPatterns patterns = .ok c) (hps : ∀ p ∈ c.patterns, WellFormed p) :
    (Agrees patterns t ∧ FlagRight patterns) ↔
      HasException patterns ∨ ¬ BecomesException patterns ∧ CoversCrossed patterns t := by
  rw [flagRight_iff hc]
  by_cases hexc : HasException patterns
  · refine iff_of_true ⟨?_, fun _ => hexc⟩ (.inl hexc)
    rw [agrees_iff hc hps hwf hroot]
    exact fun _ _ _ _ => .inl ((exceptions_iff hc).mpr hexc)
  · by_cases hbecomes : BecomesException patterns
    · simp [hexc, hbecomes]
    · simp [hexc, hbecomes, agrees_iff_covers hwf hroot hc hps hexc hbecomes]

/-- Patterns without a character class match only as many elements as they have. -/
theorem covers_of_no_class (hwf : t.Wf) (h : ∀ p ∈ written patterns, '[' ∉ clean p) : CoversCrossed patterns t := by
  intro d hd hl p hp hm hparts
  have hproper : ProperPath d := ⟨hd, hwf.proper (by rw [hl]; simp)⟩
  refine (hparts ?_).elim
  have hcount := match_count (h p hp) hm
  have hlen : ∀ q : Str, parts q = q.count '/' + 1 := Words.length_splitOn
  have hd' := hlen (joinSlash d)
  rw [parts, hproper.splitOn] at hd'
  rw [hlen, hd', hcount]

/-- A directory with a file in it. -/
def oneFile (dir file : String) : Source := .node true [(dir.toList, .node true [(file.toList, .node false [])])]

theorem oneFile_wf {dir file : String} (hd : Proper dir.toList) (hf : Proper file.toList) :
    (oneFile dir file).Wf := by
  have hfile : Source.Wf (.node false []) := .node (by simp) (by simp)
  have hdir : Source.Wf (.node true [(file.toList, .node false [])]) :=
    .node (by simpa using hf) (forall_mem_singleton.mpr hfile)
  exact .node (by simpa using hd) (forall_mem_singleton.mpr hdir)

theorem archive_agrees_docs :
    Agrees ["docs".toList, "*.md".toList] (oneFile "docs" "README.md") ∧
      FlagRight ["docs".toList, "*.md".toList] := by
  have hwf : (oneFile "docs" "README.md").Wf := oneFile_wf (by decide +kernel) (by decide +kernel)
  have hplain : ∀ p ∈ written ["docs".toList, "*.md".toList], '[' ∉ clean p := by decide +kernel
  have hbecomes : ¬ BecomesException ["docs".toList, "*.md".toList] := by
    rw [BecomesException]
    decide +kernel
  exact (archive_agrees_iff ["docs".toList, "*.md".toList]
    ⟨["docs".toList, "*.md".toList], [["docs".toList], ["*.md".toList]], false⟩ (oneFile "docs" "README.md") hwf rfl
    (by decide +kernel) (by decide +kernel)).mpr (.inr ⟨hbecomes, covers_of_no_class hwf hplain⟩)

/-- An exception that is one only once it is cleaned, and a class that matches a separator: the directory is
skipped, and with it a file that is not excluded. -/
theorem skipped_file :
    tarWithOptions noOptions ["docs".toList, "./!docs/README.md".toList] (oneFile "docs" "README.md") = .ok [] ∧
      fileMatches "docs/README.md".toList ["docs".toList, "./!docs/README.md".toList] = .ok false ∧
      cleanPatterns ["docs".toList, "./!docs/README.md".toList] =
        .ok ⟨["docs".toList, "!docs/README.md".toList], [["docs".toList], ["docs".toList, "README.md".toList]],
          false⟩ ∧
      tarWithOptions noOptions ["a[^b]c".toList] (.node true [("a".toList, oneFile "c" "x")]) = .ok ["a".toList] ∧
      fileMatches "a/c/x".toList ["a[^b]c".toList] = .ok false := by
  decide +kernel

end DockerEngine.Archive.Exclude
