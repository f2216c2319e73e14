import DockerEngine.Lib.Words

/-!
# Slash-separated paths

The lexical half of Go's `path/filepath` on a Unix host: `Clean`, `Join`, `Dir`, `Base`, `Rel` and
`IsAbs`, as their documentation states them. A path is the list of its characters; what the
functions do is said once, on the list of its non-empty elements (`comps`), and the string is
rebuilt at the end (`render`).

Everything below rests on one fact (`walk_eq_norm`): the effect of a list of elements on a
directory is to climb `k` levels and then to descend along `ns`, where `(k, ns)` is the normal form
of the list alone. So `Clean` may forget the directory, and `Join` may clean before or after it
prepends one.

Absolute clean paths are `absPath ns` for a list `ns` of proper names (`clean_rooted`), and on them
"equal or below" as strings is the prefix order on lists of names (`below_iff_prefix`). Nothing here
touches a file system.
-/

namespace DockerEngine.Filepath

open List

/-- A Go string, as the list of its characters. -/
abbrev Str := List Char

instance lawfulBEqStr : LawfulBEq Str := inferInstance

/-- The element `.`, which names the directory itself. -/
def dot : Str := ['.']

/-- The element `..`, which names the directory above. -/
def dotdot : Str := ['.', '.']

section

variable (s : Str) (p : Str) (rooted : Bool) (cs : List Str)

/-- `strings.HasPrefix`. -/
def hasPrefix : Bool := p.isPrefixOf s

/-- `strings.HasSuffix`. -/
def hasSuffix : Bool := p.isSuffixOf s

/-- `filepath.IsAbs`: the path starts with the separator. -/
def isAbs : Bool := s.head? == some '/'

/-- The non-empty elements of a path, in order. -/
def comps : List Str := (s.splitOn '/').filter (fun c => c ≠ [])

/-- Elements with one separator between each two. -/
def joinSlash : Str := ['/'].intercalate cs

/-- One element read from left to right. The state is the number of `..` that could not be
cancelled and the names below them, innermost first. In a rooted path a `..` with nothing to
cancel stays at the root. -/
def walkOne (st : Nat × List Str) (c : Str) : Nat × List Str :=
  if c = dot then st
  else if c = dotdot then
    match st.2 with
    | [] => (if rooted then st.1 else st.1 + 1, [])
    | _ :: below => (st.1, below)
  else (st.1, c :: st.2)

/-- The normal form of a list of elements: climb, then descend. -/
def norm : Nat × List Str := cs.foldl (walkOne rooted) (0, [])

/-- The string of a normal form. -/
def render : Str :=
  if rooted then '/' :: joinSlash cs else if cs = [] then dot else joinSlash cs

/-- `filepath.Clean`. -/
def clean : Str :=
  let st := norm (isAbs s) (comps s)
  render (isAbs s) (replicate st.1 dotdot ++ st.2.reverse)

/-- `filepath.Join`: leading empty elements are dropped, the rest is joined and cleaned. -/
def join (elems : List Str) : Str :=
  match elems.dropWhile (fun e => e = []) with
  | [] => []
  | es => clean (joinSlash es)

/-- `filepath.Dir`: all but the last element, cleaned. -/
def dir : Str := clean (p.reverse.dropWhile (fun c => c ≠ '/')).reverse

/-- `filepath.Base`: the last element. -/
def base : Str :=
  if p = [] then dot
  else match (comps p).getLast? with
    | none => ['/']
    | some c => c

end

/-- Two lists without the prefix they share. -/
def stripCommon : List Str → List Str → List Str × List Str
  | b :: bs, t :: ts => if b = t then stripCommon bs ts else (b :: bs, t :: ts)
  | bs, ts => (bs, ts)

/-- `filepath.Rel`: how to reach `targ` from `basepath`. It fails when one path is absolute and the
other is not, and when the way would have to climb out of a `..`. -/
def rel (basepath targ : Str) : Option Str :=
  let b := clean basepath
  let t := clean targ
  if t = b then some dot
  else if isAbs b ≠ isAbs t then none
  else
    let bs := if b = dot then [] else comps b
    let (bs', ts') := stripCommon bs (comps t)
    if bs'.head? = some dotdot then none
    else some (joinSlash (replicate bs'.length dotdot ++ ts'))

/-- Where a list of elements leads from the directory `ds`, without leaving the root. -/
def walk (ds cs : List Str) : List Str := (cs.foldl (walkOne true) (0, ds.reverse)).2.reverse

/-- The absolute path through the given names. -/
def absPath (ns : List Str) : Str := '/' :: joinSlash ns

/-- A name a directory can hold. -/
def Proper (n : Str) : Prop := n ≠ [] ∧ n ≠ dot ∧ n ≠ dotdot ∧ '/' ∉ n

instance (n : Str) : Decidable (Proper n) := inferInstanceAs (Decidable (_ ∧ _ ∧ _ ∧ _))

/-- Names that a path can be made of. -/
@[simp] abbrev AllProper (ns : List Str) : Prop := ∀ n ∈ ns, Proper n

/-- The path `p` is the directory `d` or lies below it. -/
def Below (d p : Str) : Prop := p = d ∨ (d ++ ['/']) <+: p

instance (d p : Str) : Decidable (Below d p) := inferInstanceAs (Decidable (_ ∨ _))

/-! ## Elements -/

theorem comps_nil : comps [] = [] := rfl

theorem comps_append_slash (a b : Str) : comps (a ++ '/' :: b) = comps a ++ comps b := by
  unfold comps
  rw [splitOn_append_cons_self, filter_append]

theorem comps_slash_cons (b : Str) : comps ('/' :: b) = comps b := by
  have h := comps_append_slash [] b
  rwa [nil_append, comps_nil, nil_append] at h

variable {c : Char} {s : Str}

/-- Names that can stand between slashes. -/
@[simp] abbrev AllElems (cs : List Str) : Prop := ∀ c ∈ cs, c ≠ [] ∧ '/' ∉ c

/-- Every element of a path is non-empty and holds no separator. -/
theorem mem_comps {c : Str} (h : c ∈ comps s) : c ≠ [] ∧ '/' ∉ c := by
  unfold comps at h
  rw [mem_filter] at h
  exact ⟨by simpa using h.2, Words.not_mem_of_mem_splitOn h.1⟩

/-- Elements that are non-empty and hold no separator are read back from their join. -/
theorem comps_joinSlash {cs : List Str} (h : AllElems cs) : comps (joinSlash cs) = cs := by
  unfold comps joinSlash
  cases hcs : cs with
  | nil => rfl
  | cons a as =>
    rw [← hcs, splitOn_intercalate _ (fun c hc => (h c hc).2) (by simp [hcs])]
    exact filter_eq_self.mpr (fun c hc => by simpa using (h c hc).1)

/-- A text without a separator is one element. -/
theorem comps_elem {x : Str} (h0 : x ≠ []) (hx : '/' ∉ x) : comps x = [x] := by
  have h := @comps_joinSlash [x] (by simpa using ⟨h0, hx⟩)
  simpa [joinSlash, intercalate] using h

/-- The first element, which may be empty, and the rest. -/
theorem comps_first (s : Str) : comps s = comps (s.takeWhile fun c => c ≠ '/') ++
    comps ((s.dropWhile fun c => c ≠ '/').drop 1) := by
  cases hd : s.dropWhile (fun c => c ≠ '/') with
  | nil =>
    have h := takeWhile_append_dropWhile (p := fun c => decide (c ≠ '/')) (l := s)
    rw [hd, append_nil] at h
    rw [h, drop_nil, comps_nil, append_nil]
  | cons c r =>
    have hc : c = '/' := by
      have hhead := head?_dropWhile_not (fun c => decide (c ≠ '/')) s
      rw [hd] at hhead
      simpa using hhead
    have h := takeWhile_append_dropWhile (p := fun c => decide (c ≠ '/')) (l := s)
    rw [hd, hc] at h
    conv_lhs => rw [← h]
    rw [comps_append_slash, drop_one, tail_cons]

variable {ns : List Str}

theorem comps_absPath (h : AllElems ns) : comps (absPath ns) = ns := by
  unfold absPath
  rw [comps_slash_cons, comps_joinSlash h]

variable {n : Str} (r : Bool)

theorem Proper.elem (h : Proper n) : n ≠ [] ∧ '/' ∉ n := ⟨h.1, h.2.2.2⟩

theorem proper_snoc (h : AllProper ns) (hn : Proper n) : AllProper (ns ++ [n]) :=
  forall_mem_append.mpr ⟨h, forall_mem_singleton.mpr hn⟩

theorem comps_absPath_proper (h : AllProper ns) : comps (absPath ns) = ns := comps_absPath fun n hn => (h n hn).elem

theorem absPath_injective {ms : List Str} (hm : AllProper ms) (hn : AllProper ns)
    (h : absPath ms = absPath ns) : ms = ns := by
  rw [← comps_absPath_proper hm, ← comps_absPath_proper hn, h]

theorem comps_dot : comps dot = [dot] := by decide

theorem isAbs_absPath (ns : List Str) : isAbs (absPath ns) := rfl

/-! ## Walking -/

theorem walkOne_dot (st : Nat × List Str) : walkOne r st dot = st := by
  simp [walkOne]

theorem walkOne_proper (st : Nat × List Str) {c : Str} (h : Proper c) : walkOne r st c = (st.1, c :: st.2) := by
  simp [walkOne, h.2.1, h.2.2.1]

variable {cs : List Str} (ds : List Str)

theorem foldl_walkOne_proper (h : AllProper cs)
    (st : Nat × List Str) : cs.foldl (walkOne r) st = (st.1, cs.reverse ++ st.2) := by
  induction cs generalizing st with
  | nil => simp
  | cons c cs ih =>
    rw [foldl_cons, walkOne_proper r st (h c mem_cons_self),
      ih (forall_mem_cons.mp h).2]
    simp

/-- The names left by a walk are those it starts from and elements that name no directory above. -/
theorem mem_foldl_walkOne {st : Nat × List Str} (hn : n ∈ (cs.foldl (walkOne r) st).2) :
    n ∈ st.2 ∨ n ∈ cs ∧ n ≠ dot ∧ n ≠ dotdot := by
  induction cs generalizing st with
  | nil => exact .inl hn
  | cons c cs ih =>
    rcases ih hn with hn | hn
    · unfold walkOne at hn
      split at hn
      · exact .inl hn
      next hdot =>
      split at hn
      · split at hn
        · cases hn
        next hst => exact .inl (hst ▸ mem_cons_of_mem _ hn)
      next hdotdot =>
        rcases mem_cons.mp hn with rfl | hn
        · exact .inr ⟨mem_cons_self, hdot, hdotdot⟩
        · exact .inl hn
    · exact .inr (hn.imp_left (mem_cons_of_mem c))

/-- They are proper when those it starts from are. -/
theorem foldl_walkOne_names (h : AllElems cs) (st : Nat × List Str) (hst : AllProper st.2) :
    ∀ n ∈ (cs.foldl (walkOne r) st).2, Proper n := by
  intro n hn
  rcases mem_foldl_walkOne r hn with hn | ⟨hn, hdot, hdotdot⟩
  · exact hst n hn
  · exact ⟨(h n hn).1, hdot, hdotdot, (h n hn).2⟩

/-- A rooted walk never counts a `..`. -/
theorem foldl_walkOne_rooted_fst (cs : List Str) (st : Nat × List Str) : (cs.foldl (walkOne true) st).1 = st.1 := by
  induction cs generalizing st with
  | nil => rfl
  | cons c cs ih =>
    rw [foldl_cons, ih]
    unfold walkOne
    split
    · rfl
    · split
      · split <;> rfl
      · rfl

/-- **The normal form is the effect.** From any directory, a list of elements climbs as often as
its normal form says and then descends along the names of its normal form. -/
theorem foldl_walkOne_norm (cs st : List Str) :
    cs.foldl (walkOne true) (0, st) = (0, (norm false cs).2 ++ st.drop (norm false cs).1) := by
  induction cs using reverseRecOn with
  | nil => simp [norm]
  | append_singleton cs c ih =>
    have hn : norm false (cs ++ [c]) = walkOne false (norm false cs) c := by
      simp [norm, foldl_append]
    rw [foldl_append, foldl_cons, foldl_nil, ih, hn]
    obtain ⟨k, ns⟩ := norm false cs
    unfold walkOne
    by_cases hd : c = dot
    · simp [hd]
    by_cases hdd : c = dotdot
    · cases ns with
      | nil =>
        -- the climb leaves the names: one more level of the directory goes
        simp only [hdd, if_false, if_true, nil_append, Bool.false_eq_true]
        cases hs : st.drop k with
        | nil => simp [dotdot, dot, drop_eq_nil_of_le
            (Nat.le_succ_of_le (drop_eq_nil_iff.mp hs))]
        | cons t below =>
          have hk : st.drop (k + 1) = below := by
            rw [← drop_drop, hs]; rfl
          simp [dotdot, dot, hk]
      | cons t below => simp [dotdot, dot, hdd]
    · simp [hd, hdd]

theorem walk_eq_norm (ds cs : List Str) :
    walk ds cs = ds.take (ds.length - (norm false cs).1) ++ (norm false cs).2.reverse := by
  unfold walk
  rw [foldl_walkOne_norm, reverse_append, drop_reverse, reverse_reverse]

theorem walk_nil : walk ds [] = ds := by simp [walk]

theorem walk_append (ds cs cs' : List Str) : walk ds (cs ++ cs') = walk (walk ds cs) cs' := by
  unfold walk
  rw [foldl_append, reverse_reverse]
  congr 3
  exact Prod.ext (foldl_walkOne_rooted_fst cs _) rfl

theorem walk_proper (h : AllProper cs) : walk ds cs = ds ++ cs := by
  unfold walk
  rw [foldl_walkOne_proper true h]
  simp

variable {ds : List Str}

theorem walk_names (hd : AllProper ds) (h : AllElems cs) : AllProper (walk ds cs) := by
  intro n hn
  refine foldl_walkOne_names true h (0, ds.reverse) ?_ n (by simpa [walk] using hn)
  intro m hm
  exact hd m (by simpa using hm)

/-! ## Joining elements -/

theorem joinSlash_cons {c : Str} (h : cs ≠ []) : joinSlash (c :: cs) = c ++ '/' :: joinSlash cs := by
  cases cs with
  | nil => exact absurd rfl h
  | cons d ds => simp [joinSlash, intercalate, intersperse]

theorem joinSlash_ne_nil (h : AllElems cs) (h0 : cs ≠ []) : joinSlash cs ≠ [] := by
  intro hnil
  have hcomps := comps_joinSlash h
  rw [hnil, comps_nil] at hcomps
  exact h0 hcomps.symm

theorem joinSlash_singleton (c : Str) : joinSlash [c] = c := by
  simp [joinSlash, intercalate]

variable {bs : List Str}

theorem joinSlash_append {as : List Str} (ha : as ≠ []) (hb : bs ≠ []) :
    joinSlash (as ++ bs) = joinSlash as ++ '/' :: joinSlash bs := by
  induction as with
  | nil => exact absurd rfl ha
  | cons a as ih =>
    by_cases h : as = []
    · subst h
      rw [singleton_append, joinSlash_cons hb, joinSlash_singleton]
    · rw [cons_append, joinSlash_cons (by simp [h]), joinSlash_cons h, ih h]
      simp

theorem absPath_append {as : List Str} (ha : as ≠ []) (hb : bs ≠ []) :
    absPath (as ++ bs) = absPath as ++ '/' :: joinSlash bs := by
  unfold absPath
  rw [joinSlash_append ha hb, cons_append]

variable {ps : List Str}

/-- Below a directory other than the root, as strings, is below it as lists of names. -/
theorem below_iff_prefix (h0 : ds ≠ []) (hd : AllProper ds)
    (hp : AllProper ps) : Below (absPath ds) (absPath ps) ↔ ds <+: ps := by
  constructor
  · rintro (h | ⟨t, h⟩)
    · rw [absPath_injective hp hd h]
    refine ⟨comps t, ?_⟩
    have hc := congrArg comps h
    rwa [append_assoc, singleton_append, comps_append_slash, comps_absPath_proper hd,
      comps_absPath_proper hp] at hc
  · rintro ⟨r, rfl⟩
    by_cases hr : r = []
    · exact .inl (by rw [hr, append_nil])
    · exact .inr ⟨joinSlash r, by rw [absPath_append h0 hr]; simp⟩

/-! ## Clean -/

theorem clean_rooted (h : isAbs s) : clean s = absPath (walk [] (comps s)) := by
  unfold clean
  have hk : (norm true (comps s)).1 = 0 := foldl_walkOne_rooted_fst _ _
  simp only [h, hk, replicate_zero, nil_append, render, if_true, absPath, walk, reverse_nil]
  rfl

theorem clean_absPath (h : AllProper ns) : clean (absPath ns) = absPath ns := by
  rw [clean_rooted (isAbs_absPath ns), comps_absPath_proper h, walk_proper [] h, nil_append]

/-- An absolute path with another one behind it. -/
theorem clean_append_absPath {ms : List Str} (hm : AllProper ms) (hn : AllProper ns) :
    clean (absPath ms ++ absPath ns) = absPath (ms ++ ns) := by
  have hall : AllProper (ms ++ ns) := forall_mem_append.mpr ⟨hm, hn⟩
  have hcomps : comps (absPath ms ++ absPath ns) = ms ++ ns := by
    rw [absPath, absPath, comps_append_slash, ← absPath, comps_absPath_proper hm,
      comps_joinSlash fun n h => (hn n h).elem]
  rw [clean_rooted (by simp [absPath, isAbs]), hcomps, walk_proper [] hall, nil_append]

/-- A clean absolute path is the path through a list of proper names. -/
theorem exists_absPath (ha : isAbs s) (hc : clean s = s) : ∃ ns, (AllProper ns) ∧ s = absPath ns :=
  ⟨walk [] (comps s), walk_names (by simp) (fun _ => mem_comps), by rw [← clean_rooted ha, hc]⟩

theorem isAbs_joinSlash (h : AllElems cs) : isAbs (joinSlash cs) = false := by
  cases cs with
  | nil => rfl
  | cons c cs =>
    obtain ⟨hne, hs⟩ := h c mem_cons_self
    cases c with
    | nil => exact absurd rfl hne
    | cons x xs =>
      have hx : x ≠ '/' := fun he => hs (by rw [he]; exact mem_cons_self)
      by_cases h0 : cs = []
      · subst h0; simp [joinSlash_singleton, isAbs, hx]
      · simp [joinSlash_cons h0, isAbs, hx]

theorem norm_replicate (k : Nat) : norm false (replicate k dotdot) = (k, []) := by
  induction k with
  | zero => rfl
  | succ k ih =>
    rw [replicate_succ', norm, foldl_append]
    change walkOne false (norm false (replicate k dotdot)) dotdot = _
    rw [ih]
    simp [walkOne, dotdot, dot]

/-- A normal form is its own normal form. -/
theorem norm_normal (k : Nat) {ns : List Str} (h : AllProper ns) :
    norm false (replicate k dotdot ++ ns.reverse) = (k, ns) := by
  rw [norm, foldl_append]
  change ns.reverse.foldl (walkOne false) (norm false (replicate k dotdot)) = _
  rw [norm_replicate, foldl_walkOne_proper false (by simpa using h)]
  simp

theorem dotdot_elem : dotdot ≠ [] ∧ '/' ∉ dotdot := by decide

theorem dot_elem : dot ≠ [] ∧ '/' ∉ dot := by decide

theorem norm_names {cs : List Str} (h : AllElems cs) : AllProper (norm false cs).2 :=
  foldl_walkOne_names false h (0, []) (by simp)

theorem climb_elems {k : Nat} {ns : List Str} (h : AllProper ns) :
    AllElems (replicate k dotdot ++ ns) := by
  refine forall_mem_append.mpr ⟨fun c hc => ?_, fun c hc => (h c hc).elem⟩
  rw [eq_of_mem_replicate hc]
  exact dotdot_elem

/-- A cleaned relative path is a non-empty list of elements with the same effect. -/
theorem clean_relative (h : isAbs s = false) :
    ∃ cs, cs ≠ [] ∧ (AllElems cs) ∧ clean s = joinSlash cs ∧
      norm false cs = norm false (comps s) ∧
      (cs = [dot] ∨ cs = replicate (norm false (comps s)).1 dotdot ++ (norm false (comps s)).2.reverse) := by
  have hnames := @norm_names (comps s) (fun _ => mem_comps)
  obtain ⟨k, ns, hst⟩ : ∃ k ns, norm false (comps s) = (k, ns) := ⟨_, _, rfl⟩
  simp only [hst] at hnames ⊢
  have hclean : clean s = render false (replicate k dotdot ++ ns.reverse) := by
    unfold clean
    simp only [h, hst]
  by_cases h0 : replicate k dotdot ++ ns.reverse = []
  · refine ⟨[dot], by simp, by simpa using dot_elem, ?_, ?_, .inl rfl⟩
    · rw [hclean, h0, joinSlash_singleton]
      rfl
    have hk : k = 0 := by simpa using congrArg length (append_eq_nil_iff.mp h0).1
    have hns : ns = [] := by simpa using (append_eq_nil_iff.mp h0).2
    rw [hk, hns]
    rfl
  · refine ⟨_, h0, climb_elems (by simpa using hnames), ?_, norm_normal k hnames, .inr rfl⟩
    rw [hclean, render, if_neg (by simp), if_neg h0]

/-- Cleaning a relative path does not change where it leads. -/
theorem walk_comps_clean (h : isAbs s = false) (ds : List Str) : walk ds (comps (clean s)) = walk ds (comps s) := by
  obtain ⟨cs, _, hel, hcl, hnorm, _⟩ := clean_relative h
  rw [hcl, comps_joinSlash hel, walk_eq_norm, hnorm, ← walk_eq_norm]

/-- The three forms of a cleaned path: absolute, the directory itself, or so many levels up and then
down along names. -/
theorem clean_cases (s : Str) :
    (∃ ns, (AllProper ns) ∧ clean s = absPath ns) ∨ clean s = dot ∨
      ∃ k ns, (AllProper ns) ∧ replicate k dotdot ++ ns ≠ [] ∧
        clean s = joinSlash (replicate k dotdot ++ ns) := by
  cases ha : isAbs s with
  | true =>
    exact .inl ⟨_, walk_names (by simp) (fun _ => mem_comps), clean_rooted ha⟩
  | false =>
    obtain ⟨cs, h0, -, hcl, -, rfl | rfl⟩ := clean_relative ha
    · exact .inr (.inl (by rw [hcl, joinSlash_singleton]))
    · refine .inr (.inr ⟨_, _, fun n hn => ?_, h0, hcl⟩)
      exact norm_names (fun _ => mem_comps) n (by simpa using hn)

/-- Climbing and coming down again, from a directory. -/
theorem walk_climb (ds : List Str) (k : Nat) {ns : List Str} (h : AllProper ns) :
    walk ds (replicate k dotdot ++ ns) = ds.take (ds.length - k) ++ ns := by
  have hn := @norm_normal k ns.reverse (by simpa using h)
  rw [reverse_reverse] at hn
  rw [walk_eq_norm, hn, reverse_reverse]

theorem walk_dot (ds : List Str) : walk ds [dot] = ds := by simp [walk, walkOne_dot]

theorem walk_dotdot (ds : List Str) : walk ds [dotdot] = ds.dropLast := by
  have h := @walk_climb ds 1 [] (by simp)
  rwa [append_nil, append_nil, ← dropLast_eq_take] at h

/-- Where a single element leads. -/
theorem walk_comps_elem (ds : List Str) {x : Str} (hx : '/' ∉ x) :
    walk ds (comps x) = if x = [] ∨ x = dot then ds else if x = dotdot then ds.dropLast
      else ds ++ [x] := by
  by_cases h0 : x = []
  · rw [h0, comps_nil, walk_nil, if_pos (.inl rfl)]
  rw [comps_elem h0 hx]
  by_cases hd : x = dot
  · rw [hd, walk_dot, if_pos (.inr rfl)]
  rw [if_neg (by simp [h0, hd])]
  by_cases hdd : x = dotdot
  · rw [hdd, walk_dotdot, if_pos rfl]
  · rw [if_neg hdd, walk_proper ds (by simpa using ⟨h0, hd, hdd, hx⟩)]

/-! ## Join, Dir, Base -/

theorem comps_joinSlash_any (cs : List Str) : comps (joinSlash cs) = cs.flatMap comps := by
  induction cs with
  | nil => rfl
  | cons c cs ih =>
    by_cases hnil : cs = []
    · rw [hnil, joinSlash_singleton, flatMap_singleton]
    · rw [joinSlash_cons hnil, comps_append_slash, ih, flatMap_cons]

/-- The elements behind an absolute path are walked one after the other. -/
theorem join_absPath_cons (hd : AllProper ds) (rest : List Str) :
    join (absPath ds :: rest) = absPath (walk ds (rest.flatMap comps)) := by
  have hne : absPath ds ≠ [] := by simp [absPath]
  have hj : join (absPath ds :: rest) = clean (joinSlash (absPath ds :: rest)) := by
    rw [join, dropWhile_cons_of_neg (by simpa using hne)]
  have habs : isAbs (joinSlash (absPath ds :: rest)) := by
    cases rest with
    | nil => rfl
    | cons c rest => rfl
  rw [hj, clean_rooted habs, comps_joinSlash_any, flatMap_cons, comps_absPath_proper hd, walk_append,
    walk_proper [] hd, nil_append]

theorem join_absPath (hd : AllProper ds) (s : Str) : join [absPath ds, s] = absPath (walk ds (comps s)) := by
  rw [join_absPath_cons hd, flatMap_singleton]

theorem reverse_no_slash (h : '/' ∉ n) : ∀ c ∈ n.reverse, decide (c ≠ '/') := Words.all_ne (by simpa using h)

theorem dropWhile_all (h : '/' ∉ n) : n.reverse.dropWhile (fun c => c ≠ '/') = [] :=
  dropWhile_eq_nil_iff.mpr (reverse_no_slash h)

theorem dir_append_slash (a : Str) (h : '/' ∉ n) : dir (a ++ '/' :: n) = clean (a ++ ['/']) := by
  rw [dir, reverse_append, reverse_cons, append_assoc, dropWhile_append_of_pos (reverse_no_slash h),
    singleton_append, dropWhile_cons_of_neg (by simp)]
  simp

theorem comps_append_sep (a : Str) : comps (a ++ ['/']) = comps a := by
  rw [comps_append_slash, comps_nil, append_nil]

theorem dir_absPath_snoc (h : AllProper ns) (hn : Proper n) : dir (absPath (ns ++ [n])) = absPath ns := by
  by_cases h0 : ns = []
  · subst h0
    have : absPath ([] ++ [n]) = [] ++ '/' :: n := by simp [absPath, joinSlash_singleton]
    rw [this, dir_append_slash _ hn.elem.2]
    decide
  · rw [absPath_append h0 (by simp), joinSlash_singleton, dir_append_slash _ hn.elem.2,
      clean_rooted (by simp [absPath, isAbs]), comps_append_sep, comps_absPath_proper h,
      walk_proper [] h, nil_append]

/-- The parent of a cleaned relative path leads where all but its last element lead. -/
theorem walk_comps_dir {cs : List Str} {c : Str} (h : AllElems cs)
    (hc : c ≠ [] ∧ '/' ∉ c) (ds : List Str) :
    walk ds (comps (dir (joinSlash (cs ++ [c])))) = walk ds cs := by
  by_cases h0 : cs = []
  · subst h0
    have : dir (joinSlash ([] ++ [c])) = dot := by
      rw [nil_append, joinSlash_singleton, dir,
        dropWhile_all hc.2]
      rfl
    rw [this, comps_dot, walk_nil]
    simp [walk, walkOne_dot]
  · have hrel : isAbs (joinSlash cs ++ ['/']) = false := by
      obtain ⟨x, xs, hj⟩ := exists_cons_of_ne_nil (joinSlash_ne_nil h h0)
      have hjoin := isAbs_joinSlash h
      rw [hj] at hjoin ⊢
      simpa [isAbs] using hjoin
    rw [joinSlash_append h0 (by simp), joinSlash_singleton, dir_append_slash _ hc.2,
      walk_comps_clean hrel, comps_append_sep, comps_joinSlash h]

theorem base_absPath_snoc (h : AllProper ns) (hn : Proper n) : base (absPath (ns ++ [n])) = n := by
  unfold base
  rw [if_neg (by simp [absPath]), comps_absPath_proper (proper_snoc h hn)]
  simp

/-! ## Rel -/

theorem stripCommon_spec (bs ts : List Str) :
    ∃ c, bs = c ++ (stripCommon bs ts).1 ∧ ts = c ++ (stripCommon bs ts).2 := by
  induction bs generalizing ts with
  | nil => exact ⟨[], by simp [stripCommon], by simp [stripCommon]⟩
  | cons b bs ih =>
    cases ts with
    | nil => exact ⟨[], by simp [stripCommon], by simp [stripCommon]⟩
    | cons t ts =>
      by_cases h : b = t
      · obtain ⟨c, h1, h2⟩ := ih ts
        refine ⟨b :: c, ?_, ?_⟩
        · rw [stripCommon, if_pos h, cons_append, ← h1]
        · rw [stripCommon, if_pos h, cons_append, ← h2, h]
      · exact ⟨[], by simp [stripCommon, h], by simp [stripCommon, h]⟩

theorem stripCommon_fst_eq_nil {ts : List Str} : (stripCommon bs ts).1 = [] ↔ bs <+: ts := by
  induction bs generalizing ts with
  | nil => simp [stripCommon]
  | cons b bs ih =>
    cases ts with
    | nil => simp [stripCommon]
    | cons t ts =>
      by_cases h : b = t
      · rw [stripCommon, if_pos h, ih, cons_prefix_cons]
        simp [h]
      · rw [stripCommon, if_neg h, cons_prefix_cons]
        simp [h]

theorem stripCommon_append (cs bs ts : List Str) : stripCommon (cs ++ bs) (cs ++ ts) = stripCommon bs ts := by
  induction cs with
  | nil => rfl
  | cons c cs ih => rw [cons_append, cons_append, stripCommon, if_pos rfl, ih]

theorem rel_absPath (hd : AllProper ds) (hp : AllProper ps) :
    rel (absPath ds) (absPath ps) = some (if ps = ds then dot else
      joinSlash (replicate (stripCommon ds ps).1.length dotdot ++ (stripCommon ds ps).2)) := by
  unfold rel
  simp only [clean_absPath hd, clean_absPath hp]
  by_cases h : ps = ds
  · simp [h]
  have hne : absPath ps ≠ absPath ds := fun he => h (absPath_injective hp hd he)
  have hdot : absPath ds ≠ dot := by simp [absPath, dot]
  rw [if_neg hne, if_neg (by simp [isAbs_absPath]), if_neg hdot, if_neg h, comps_absPath_proper hd,
    comps_absPath_proper hp]
  have hhead : (stripCommon ds ps).1.head? ≠ some dotdot := by
    intro hh
    obtain ⟨c, h1, _⟩ := stripCommon_spec ds ps
    have hm : dotdot ∈ ds := by
      rw [h1]
      exact mem_append_right _ (mem_of_mem_head? hh)
    exact (hd _ hm).2.2.1 rfl
  simp [hhead]

/-! ## Prefixes and suffixes of spelled paths -/

/-- A text without a separator that a path starts with is the start of the first element. -/
theorem prefix_first {w d r : Str} (hw : '/' ∉ w) (h : w <+: d ++ '/' :: r) : w <+: d := by
  have hd : d ++ ['/'] <+: d ++ '/' :: r := ⟨r, by simp⟩
  rcases prefix_or_prefix_of_prefix h hd with h | ⟨t, rfl⟩
  · rcases prefix_concat_iff.mp h with rfl | h
    · simp at hw
    · exact h
  · simp at hw

theorem hasPrefix_joinSlash {w c : Str} (cs : List Str) (hw : '/' ∉ w) :
    hasPrefix (joinSlash (c :: cs)) w = hasPrefix c w := by
  rw [Bool.eq_iff_iff]
  simp only [hasPrefix, isPrefixOf_iff_prefix]
  by_cases hcs : cs = []
  · rw [hcs, joinSlash_singleton]
  · rw [joinSlash_cons hcs]
    exact ⟨prefix_first hw, fun hp => hp.trans (prefix_append ..)⟩

/-- A path that starts with `../` goes up and on. -/
theorem hasPrefix_up (h : AllElems cs) :
    hasPrefix (joinSlash cs) (dotdot ++ ['/']) ↔ ∃ t, t ≠ [] ∧ cs = dotdot :: t := by
  simp only [hasPrefix, isPrefixOf_iff_prefix]
  constructor
  · rintro ⟨r, hr⟩
    rw [append_assoc, singleton_append] at hr
    have hcomps := comps_joinSlash h
    rw [← hr, comps_append_slash, show comps dotdot = [dotdot] by decide, singleton_append]
      at hcomps
    refine ⟨comps r, ?_, hcomps.symm⟩
    intro h0
    rw [h0] at hcomps
    rw [← hcomps, joinSlash_singleton] at hr
    simp at hr
  · rintro ⟨t, ht, rfl⟩
    rw [joinSlash_cons ht]
    exact ⟨joinSlash t, by simp⟩

/-- The way from a directory to a path starts with `../` unless the path is inside the directory or
is the directory above it, to which the way is `..` alone. -/
theorem exists_rel (h0 : ds ≠ []) (hd : AllProper ds)
    (hp : AllProper ps) : ∃ r, rel (absPath ds) (absPath ps) = some r ∧
      (hasPrefix r (dotdot ++ ['/']) = false ↔ ds <+: ps ∨ ps = ds.dropLast) := by
  refine ⟨_, rel_absPath hd hp, ?_⟩
  by_cases heq : ps = ds
  · rw [if_pos heq, heq]
    exact iff_of_true (by decide) (.inl (prefix_refl ds))
  obtain ⟨c, hb, ht⟩ := stripCommon_spec ds ps
  have hin : (stripCommon ds ps).1 = [] ↔ ds <+: ps := stripCommon_fst_eq_nil
  have habove : ps = ds.dropLast → stripCommon ds ps = ([ds.getLast h0], []) := by
    intro h
    have happ := stripCommon_append ds.dropLast [ds.getLast h0] []
    rwa [dropLast_concat_getLast, append_nil, ← h] at happ
  rcases hst : stripCommon ds ps with ⟨bs, ts⟩
  rw [hst] at hb ht hin habove
  have hts : AllProper ts := fun n hn => hp n (by rw [ht]; simp [hn])
  rw [if_neg heq, Bool.eq_false_iff, ne_eq, hasPrefix_up (climb_elems hts), ← hin]
  cases bs with
  | nil =>
    refine iff_of_true ?_ (.inl rfl)
    rintro ⟨t, -, h⟩
    rw [length_nil, replicate_zero, nil_append] at h
    exact (hts dotdot (by simp [h])).2.2.1 rfl
  | cons b bs =>
    constructor
    · intro hno
      right
      by_contra hne
      refine hno ⟨replicate bs.length dotdot ++ ts, fun hnil => hne ?_, by
        simp [replicate_succ]⟩
      obtain ⟨hbs, rfl⟩ := append_eq_nil_iff.mp hnil
      obtain rfl : bs = [] := by simpa using hbs
      simp only at hb ht
      rw [hb, ht, append_nil, dropLast_concat]
    · rintro (h | h)
      · cases h
      obtain ⟨hbs, hts⟩ := Prod.mk.inj (habove h)
      obtain ⟨-, rfl⟩ := cons.inj hbs
      subst hts
      rintro ⟨t, ht, h⟩
      simp only [length_singleton, replicate_one, append_nil, cons.injEq, true_and] at h
      exact ht h.symm

theorem hasSuffix_joinSlash (h : AllElems cs) : hasSuffix (joinSlash cs) ['/'] = false := by
  by_cases h0 : cs = []
  · subst h0; rfl
  obtain ⟨ds, n, rfl⟩ := (eq_nil_or_concat' cs).resolve_left h0
  obtain ⟨hn, hslash⟩ := h n (by simp)
  obtain ⟨w, c, rfl⟩ := (eq_nil_or_concat' n).resolve_left hn
  have htail : ∃ u, joinSlash (ds ++ [w ++ [c]]) = u ++ [c] := by
    by_cases hd : ds = []
    · subst hd
      exact ⟨w, by simp [joinSlash_singleton]⟩
    · exact ⟨joinSlash ds ++ '/' :: w, by
        rw [joinSlash_append hd (by simp), joinSlash_singleton]; simp⟩
  obtain ⟨u, hu⟩ := htail
  rw [hu, hasSuffix, Bool.eq_false_iff, ne_eq, isSuffixOf_iff_suffix]
  rintro ⟨v, hv⟩
  have hc : '/' = c := singleton_inj.mp (append_inj_right' hv rfl)
  exact hslash (by simp [← hc])

theorem hasSuffix_absPath (h : AllProper ns) (h0 : ns ≠ []) : hasSuffix (absPath ns) ['/'] = false := by
  have hjoin := hasSuffix_joinSlash fun n hn => (h n hn).elem
  rw [Bool.eq_false_iff, ne_eq, hasSuffix, isSuffixOf_iff_suffix] at hjoin ⊢
  intro hsuf
  rcases suffix_cons_iff.mp hsuf with heq | hsuf
  · exact joinSlash_ne_nil (fun n hn => (h n hn).elem) h0 (cons.inj heq).2.symm
  · exact hjoin hsuf

/-- A relative path through names is cleaned to those names. -/
theorem clean_names (hs : isAbs s = false) (hc : comps s = ns)
    (hn : AllProper ns) (h0 : ns ≠ []) : clean s = joinSlash ns := by
  have hnorm : norm false ns = (0, ns.reverse) := by
    rw [norm, foldl_walkOne_proper false hn]; simp
  simp only [clean, hs, hc, hnorm, render, replicate_zero, nil_append,
    reverse_reverse, Bool.false_eq_true, if_false, if_neg h0]

/-- A directory comes before what is below it. -/
theorem absPath_lt {qs : List Str} (h : ps <+: qs) (hne : ps ≠ qs) (hq : AllElems qs) :
    absPath ps < absPath qs := by
  obtain ⟨r, rfl⟩ := h
  have hr : r ≠ [] := fun h => hne (by simp [h])
  obtain ⟨t, ht, heq⟩ : ∃ t, t ≠ [] ∧ absPath (ps ++ r) = absPath ps ++ t := by
    by_cases hp : ps = []
    · subst hp
      exact ⟨joinSlash r, joinSlash_ne_nil hq hr, rfl⟩
    · exact ⟨'/' :: joinSlash r, by simp, absPath_append hp hr⟩
  rw [heq]
  exact lt_of_le_of_ne (not_lt.mp le_append_left) (by simpa using ht)

/-! ## The characters of a path -/

theorem mem_joinSlash (h : c ∈ joinSlash ns) : c = '/' ∨ ∃ n ∈ ns, c ∈ n := by
  induction ns with
  | nil => simp [joinSlash] at h
  | cons n ns ih =>
    by_cases hns : ns = []
    · rw [hns, joinSlash_singleton] at h
      exact .inr ⟨n, by simp, h⟩
    rw [joinSlash_cons hns, mem_append, mem_cons] at h
    rcases h with h | rfl | h
    · exact .inr ⟨n, by simp, h⟩
    · exact .inl rfl
    · refine (ih h).imp_right ?_
      rintro ⟨m, hm, hc⟩
      exact ⟨m, by simp [hm], hc⟩

theorem exists_mem_splitOn (hc : c ∈ s) (hne : c ≠ '/') : ∃ part ∈ s.splitOn '/', c ∈ part := by
  have hjoin : joinSlash (s.splitOn '/') = s := intercalate_splitOn '/'
  exact (mem_joinSlash (hjoin.symm ▸ hc)).resolve_left hne

theorem mem_joinSlash_of_mem (hn : n ∈ ns) (hc : c ∈ n) : c ∈ joinSlash ns := by
  induction ns with
  | nil => cases hn
  | cons m ns ih =>
    by_cases hns : ns = []
    · rw [hns, mem_singleton] at hn
      rwa [hns, joinSlash_singleton, ← hn]
    rw [joinSlash_cons hns, mem_append, mem_cons]
    rcases mem_cons.mp hn with rfl | hn
    · exact .inl hc
    · exact .inr (.inr (ih hn))

theorem mem_of_mem_comps (hn : n ∈ comps s) (hc : c ∈ n) : c ∈ s := by
  have hjoin : joinSlash (s.splitOn '/') = s := intercalate_splitOn '/'
  rw [← hjoin]
  exact mem_joinSlash_of_mem (mem_of_mem_filter hn) hc

/-- Cleaning an absolute path adds no characters beside separators. -/
theorem mem_clean (h : isAbs s) (hc : c ∈ clean s) : c = '/' ∨ c ∈ s := by
  rw [clean_rooted h, absPath, mem_cons] at hc
  rcases hc with rfl | hc
  · exact .inl rfl
  refine (mem_joinSlash hc).imp_right ?_
  rintro ⟨n, hn, hc⟩
  rw [walk, mem_reverse] at hn
  exact mem_of_mem_comps ((mem_foldl_walkOne true hn).resolve_left (by simp)).1 hc

theorem isAbs_clean (h : isAbs s) : isAbs (clean s) := by
  rw [clean_rooted h]
  exact isAbs_absPath _

end DockerEngine.Filepath
