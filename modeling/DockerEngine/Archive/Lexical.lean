import DockerEngine.Archive.Unpack

/-!
# Which names keep an extraction inside its destination

`UnpackLayer` and `Unpack` compute every path they hand to a mutating call (`MkdirAll`, `RemoveAll`,
`createTarFile`, `UtimesNano`) from the destination and the name of an entry. Here the calls are
logged and the logged paths are compared with the destination as strings, for every behaviour of the
file system behind the calls.

Both functions look at the way from the destination to the path of the entry and refuse it when it
starts with `../`. Three things get past this. The parent directory is made before the path is
looked at. The way to the directory above the destination is `..`, without a separator. And a
whiteout is looked at before the name it stands for is put in its place: `.wh...` stands for `..`.
`unpack_confined_iff` states what names are left: with them, and with no others, every logged path is
the destination or below it on every file system.
-/

namespace DockerEngine.Archive

open Filepath Resolve UnixFs List Proc Calls

/-! ## Names -/

section

variable (ds : List Str) (name : Str)

/-- Where a name leads from the directory `ds`. The loops clean it first. -/
def leadsTo : List Str := walk ds (comps (clean name))

/-- The name leads to `ds` or below, and if it climbs out on the way it comes back to a place below. -/
def Stays : Prop := ds <+: leadsTo ds name ∧ ((comps (clean name)).head? = some dotdot → leadsTo ds name ≠ ds)

instance (ds : List Str) (name : Str) : Decidable (Stays ds name) := inferInstanceAs (Decidable (_ ∧ _))

/-- The path has the name of a whiteout. -/
def isWhiteout (path : Str) : Bool := hasPrefix (base path) ".wh.".toList

/-- The path that an entry of a layer removes or creates: a whiteout stands for the name behind its
prefix. -/
def touchedPath (path : Str) : Str :=
  if isWhiteout path then join [dir path, (base path).drop 4] else path

/-- The whiteout of the directory above. -/
def whiteoutUp : Str := ".wh.".toList ++ dotdot

/-- The parent directory `ensureParent` looks at, from the directory `ds`. -/
def parentOf : List Str := walk ds (comps (dir (clean name)))

/-- The three kinds of names: the directory itself, some levels up, or a name in the directory that
is reached by going some levels up and down again. -/
theorem leadsTo_cases :
    (leadsTo ds name = ds ∧ parentOf ds name = ds ∧ (comps (clean name)).head? ≠ some dotdot) ∨
    (∃ k, leadsTo ds name = ds.take (ds.length - (k + 1)) ∧
      parentOf ds name = ds.take (ds.length - k) ∧ hasSuffix (clean name) ['/'] = false ∧
      (comps (clean name)).head? = some dotdot) ∨
    ∃ k ms x, leadsTo ds name = ds.take (ds.length - k) ++ ms ++ [x] ∧
      parentOf ds name = ds.take (ds.length - k) ++ ms ∧
      hasSuffix (clean name) ['/'] = false ∧
      ((comps (clean name)).head? = some dotdot ↔ 0 < k) := by
  have hnodots : ∀ {ns : List Str}, (AllProper ns) → ns.head? ≠ some dotdot :=
    fun hns hh => (hns _ (mem_of_mem_head? hh)).2.2.1 rfl
  unfold leadsTo parentOf
  rcases clean_cases name with ⟨ns, hns, hcl⟩ | hcl | ⟨k, ns, hns, hne, hcl⟩
  · rw [hcl, comps_absPath_proper hns, walk_proper ds hns]
    rcases eq_nil_or_concat' ns with rfl | ⟨ms, x, rfl⟩
    · refine .inl ⟨by simp, ?_, by simp⟩
      rw [show comps (dir (absPath [])) = [] by decide, walk_nil]
    have hms : AllProper ms := (forall_mem_append.mp hns).1
    refine .inr (.inr ⟨0, ms, x, by simp, ?_, ?_, ?_⟩)
    · rw [dir_absPath_snoc hms (hns x (by simp)), comps_absPath_proper hms, walk_proper ds hms]
      simp
    · exact hasSuffix_absPath hns (by simp)
    · exact iff_of_false (hnodots hns) (by simp)
  · refine .inl ?_
    have hdir := @walk_comps_dir [] dot (by simp) dot_elem ds
    rw [nil_append, joinSlash_singleton] at hdir
    rw [hcl, hdir, comps_dot, walk_dot, walk_nil]
    exact ⟨rfl, rfl, by decide⟩
  · have hel := @climb_elems k ns hns
    rw [hcl, comps_joinSlash hel, hasSuffix_joinSlash hel, walk_climb ds k hns]
    rcases eq_nil_or_concat' ns with rfl | ⟨ms, x, rfl⟩
    · cases k with
      | zero => simp at hne
      | succ k =>
        refine .inr (.inl ⟨k, by simp, ?_, rfl, by simp [replicate_succ]⟩)
        rw [append_nil, replicate_succ',
          walk_comps_dir (fun c hc => by rw [eq_of_mem_replicate hc]; exact dotdot_elem)
            dotdot_elem]
        have := @walk_climb ds k [] (by simp)
        rwa [append_nil, append_nil] at this
    · have hms : AllProper ms := (forall_mem_append.mp hns).1
      refine .inr (.inr ⟨k, ms, x, by simp, ?_, rfl, ?_⟩)
      · rw [← append_assoc, walk_comps_dir (climb_elems hms) (hns x (by simp)).elem,
          walk_climb ds k hms]
      · cases k with
        | zero => exact iff_of_false (hnodots hns) (by simp)
        | succ k => simp [replicate_succ]

end

/-- The entry is AUFS metadata, which is not extracted. -/
def isMetadata (hdr : Header) : Bool := hasPrefix hdr.name ".wh..wh.".toList

/-- A hard link into `.wh..wh.plnk` without a file there. -/
def BadPlnk (plnk : List Str) (hdr : Header) : Prop :=
  hdr.typeflag = .link ∧ hasPrefix (clean hdr.linkname) ".wh..wh.plnk".toList = true ∧
    base hdr.linkname ∉ plnk

instance (plnk : List Str) (hdr : Header) : Decidable (BadPlnk plnk hdr) := inferInstanceAs (Decidable (_ ∧ _ ∧ _))

/-- The files of `.wh..wh.plnk` kept so far. -/
def LayerState.plnk (st : LayerState) : List Str := st.aufsHardlinks.map Prod.fst

/-- The files of `.wh..wh.plnk` kept after the round of an entry. -/
def plnkAfter (plnk : List Str) (hdr : Header) : List Str :=
  if hasPrefix hdr.name ".wh..wh.plnk".toList ∧ hdr.typeflag = .reg then base hdr.name :: plnk
  else plnk

/-- The round is that of a hard link into `.wh..wh.plnk` that is refused. -/
def Stops (dest : Str) (plnk : List Str) (hdr : Header) : Prop :=
  isMetadata hdr = false ∧ isWhiteout (join [dest, hdr.name]) = false ∧ BadPlnk plnk hdr

instance (dest : Str) (plnk : List Str) (hdr : Header) : Decidable (Stops dest plnk hdr) :=
  inferInstanceAs (Decidable (_ ∧ _ ∧ _))

/-- The entries of a layer up to the first refused hard link. -/
def reached (dest : Str) : List Str → List Entry → List Entry
  | _, [] => []
  | plnk, e :: es =>
    e :: if Stops dest plnk e.hdr.cleaned then [] else reached dest (plnkAfter plnk e.hdr.cleaned) es

/-- The paths that an entry of a layer hands to the mutating calls have a property. -/
def EntryGood (dest : Str) (good : Str → Prop) (hdr : Header) : Prop :=
  (hasSuffix hdr.name ['/'] = false → good (join [dest, dir hdr.name])) ∧
    (isMetadata hdr = false → good (touchedPath (join [dest, hdr.name])))

/-- The paths that an entry hands to the mutating calls of `Unpack` have a property. -/
def FileGood (dest : Str) (good : Str → Prop) (hdr : Header) : Prop :=
  (hasSuffix hdr.name ['/'] = false → good (join [dest, dir hdr.name])) ∧ good (join [dest, hdr.name])

theorem plnkAfter_of_not_metadata {plnk : List Str} {hdr : Header} (h : isMetadata hdr = false) :
    plnkAfter plnk hdr = plnk := by
  refine if_neg fun hplnk => Bool.false_ne_true (h.symm.trans ?_)
  have hlong := isPrefixOf_iff_prefix.mp hplnk.1
  have hshort : ".wh..wh.".toList <+: ".wh..wh.plnk".toList := by decide
  exact isPrefixOf_iff_prefix.mpr (hshort.trans hlong)

theorem leadsTo_names {ds : List Str} (h : AllProper ds) (name : Str) :
    AllProper (leadsTo ds name) := walk_names h fun _ => mem_comps

section Names

variable {D P : List Str} (h0 : D ≠ []) (hD : ∀ n ∈ D, Proper n)

theorem snoc_ne_of_prefix {x : Str} (h : D <+: P) : P ++ [x] ≠ D := by
  rintro rfl
  exact absurd h.length_le (by simp)

include h0

theorem not_prefix_take {k : Nat} (hk : 0 < k) : ¬ D <+: D.take (D.length - k) := by
  intro h
  have hlen := h.length_le
  have hpos := length_pos_iff.mpr h0
  rw [length_take] at hlen
  omega

/-- What the parent directory of an entry and its path being inside means for the name. -/
theorem stays_iff (name : Str) : Stays D name ↔
    (hasSuffix (clean name) ['/'] = false → D <+: parentOf D name) ∧ D <+: leadsTo D name := by
  unfold Stays
  rcases leadsTo_cases D name with ⟨hl, hp, hh⟩ | ⟨k, hl, hp, hs, hh⟩ | ⟨k, ms, x, hl, hp, hs, hh⟩
  · simp [hl, hp, hh]
  · have hout := not_prefix_take h0 (Nat.succ_pos k)
    simp [hl, hout]
  rw [hl, ← hp, hh, hs, prefix_concat_iff]
  constructor
  · rintro ⟨heq | hin, hk⟩
    · -- the name leads to `D` itself, so it did not climb and its parent is above `D`
      have hk0 : k = 0 := Nat.eq_zero_of_not_pos fun hpos => hk hpos heq.symm
      rw [hp, hk0, Nat.sub_zero, take_length] at heq
      simp at heq
    · exact ⟨fun _ => hin, .inr hin⟩
  · rintro ⟨hin, -⟩
    exact ⟨.inr (hin rfl), fun _ => snoc_ne_of_prefix (hin rfl)⟩

/-- A name whose parent directory is inside leads inside or to the directory above. -/
theorem leadsTo_of_parentOf {name : Str} (h : D <+: parentOf D name) :
    D <+: leadsTo D name ∨ leadsTo D name = D.dropLast := by
  rcases leadsTo_cases D name with ⟨hl, -, -⟩ | ⟨k, hl, hp, -, -⟩ | ⟨k, ms, x, hl, hp, -, -⟩
  · exact .inl (by rw [hl])
  · have hk : k = 0 := by
      by_contra hk
      exact not_prefix_take h0 (Nat.pos_of_ne_zero hk) (hp ▸ h)
    exact .inr (by rw [hl, hk, dropLast_eq_take])
  · exact .inl (by rw [hl, ← hp]; exact h.trans (prefix_append ..))

/-- The check of an entry's path lets through what is inside and the directory above. -/
theorem entryPath_eq {σ : Type} (hD : AllProper D) (name : Str) :
    (entryPath (absPath D) (clean name) : Proc σ Err Str) =
      if D <+: leadsTo D name ∨ leadsTo D name = D.dropLast then pure (absPath (leadsTo D name))
      else fail (.outside (clean name) (absPath D)) := by
  obtain ⟨r, hr, hup⟩ := exists_rel h0 hD (leadsTo_names hD name)
  have hjoin : join [absPath D, clean name] = absPath (leadsTo D name) := join_absPath hD _
  simp only [entryPath, hjoin, hr]
  split
  next h => rw [if_neg fun hin => Bool.eq_false_iff.mp (hup.mpr hin) h]
  next h => rw [if_pos (hup.mp (Bool.eq_false_iff.mpr h))]

/-- The touched path of a position that the check lets through is inside unless the position is the
directory itself under a whiteout's name, or the whiteout of the directory above. -/
theorem below_touchedPath (hD : AllProper D) (hP : AllProper P) (hin : D <+: P ∨ P = D.dropLast) :
    Below (absPath D) (touchedPath (absPath P)) ↔
      D <+: P ∧ (isWhiteout (absPath D) → P ≠ D) ∧
        P ≠ D ++ [whiteoutUp] := by
  rcases eq_nil_or_concat' P with rfl | ⟨Q, b, rfl⟩
  · -- the root is above `D`
    have hroot : touchedPath (absPath []) = absPath [] := by decide
    rw [hroot, below_iff_prefix h0 hD (by simp), prefix_nil]
    simp [h0]
  have hQ : AllProper Q := (forall_mem_append.mp hP).1
  have hb : Proper b := hP b (by simp)
  unfold touchedPath isWhiteout
  rw [base_absPath_snoc hQ hb, dir_absPath_snoc hQ hb, join_absPath hQ]
  by_cases hwh : hasPrefix b ".wh.".toList
  · rw [if_pos hwh, below_iff_prefix h0 hD (walk_names hQ fun _ => mem_comps)]
    obtain ⟨x, rfl⟩ := isPrefixOf_iff_prefix.mp hwh
    have hx : '/' ∉ x := fun h => hb.2.2.2 (mem_append_right _ h)
    rw [show (".wh.".toList ++ x).drop 4 = x from rfl, walk_comps_elem Q hx]
    by_cases hDQ : D <+: Q
    · have hne : Q ++ [".wh.".toList ++ x] ≠ D := snoc_ne_of_prefix hDQ
      have hup : Q ++ [".wh.".toList ++ x] = D ++ [whiteoutUp] ↔ Q = D ∧ x = dotdot := by
        have hname : whiteoutUp = ".wh.".toList ++ dotdot := rfl
        rw [append_singleton_inj, hname, append_right_inj]
      have hdrop : D <+: Q.dropLast ↔ Q ≠ D := by
        obtain ⟨t, rfl⟩ := hDQ
        rcases eq_nil_or_concat' t with rfl | ⟨t, y, rfl⟩
        · have := not_prefix_take h0 Nat.one_pos
          simpa [dropLast_eq_take] using this
        · rw [← append_assoc, dropLast_concat]
          exact iff_of_true (prefix_append ..) (by simp)
      have hpre : ∀ y : Str, D <+: Q ++ [y] := fun y => hDQ.trans (prefix_append ..)
      simp only [hpre, hne, ne_eq, not_false_eq_true, implies_true, true_and, hup, not_and]
      split
      next h =>
        refine iff_of_true hDQ fun _ hx => ?_
        rcases h with h | h <;> rw [h] at hx <;> cases hx
      next =>
        split
        next h => rw [hdrop]; exact ⟨fun hne heq => absurd heq hne, fun himp heq => himp heq h⟩
        next h => exact iff_of_true (hpre x) fun _ => h
    · -- the position is `D` itself or the directory above it
      have hlast : D <+: Q ++ [".wh.".toList ++ x] → D = Q ++ [".wh.".toList ++ x] :=
        fun h => (prefix_concat_iff.mp h).resolve_right hDQ
      refine iff_of_false ?_ ?_
      · split
        · exact hDQ
        split
        · exact fun h => hDQ (h.trans (List.dropLast_prefix Q))
        intro h
        have hDx : D = Q ++ [x] := (prefix_concat_iff.mp h).resolve_right hDQ
        rcases hin with hin | hin
        · have hself := (append_singleton_inj.mp (hDx.symm.trans (hlast hin))).2
          exact absurd (self_eq_append_left.mp hself) (by decide)
        · rw [hDx, dropLast_concat] at hin
          simp at hin
      · rintro ⟨hpre, hne, -⟩
        refine hne ?_ (hlast hpre).symm
        rw [hlast hpre, base_absPath_snoc hQ hb]
        exact hwh
  · rw [if_neg hwh, below_iff_prefix h0 hD hP]
    refine ⟨fun h => ⟨h, fun hd heq => hwh ?_, fun heq => hwh ?_⟩, fun h => h.1⟩
    · rwa [← heq, base_absPath_snoc hQ hb] at hd
    · rw [(append_singleton_inj.mp heq).2]
      decide

/-- The parent directory being inside is enough for the path to pass the check. -/
theorem leadsTo_of_parent {name : Str} (h : hasSuffix (clean name) ['/'] = false → D <+: parentOf D name) :
    D <+: leadsTo D name ∨ leadsTo D name = D.dropLast := by
  cases hs : hasSuffix (clean name) ['/'] with
  | false => exact leadsTo_of_parentOf h0 (h hs)
  | true =>
    rcases leadsTo_cases D name with ⟨hl, -, -⟩ | ⟨k, -, -, hs', -⟩ | ⟨k, ms, x, -, -, hs', -⟩
    · exact .inl (by rw [hl])
    · exact absurd (hs'.symm.trans hs) Bool.false_ne_true
    · exact absurd (hs'.symm.trans hs) Bool.false_ne_true

omit h0 in
/-- AUFS metadata lies in the destination. -/
theorem stays_of_metadata {name : Str} (h : hasPrefix (clean name) ".wh..wh.".toList) : Stays D name := by
  unfold Stays leadsTo
  rcases clean_cases name with ⟨ns, hns, hcl⟩ | hcl | ⟨k, ns, hns, hne, hcl⟩
  · rw [hcl] at h; cases h
  · rw [hcl] at h; cases h
  rw [hcl, comps_joinSlash (climb_elems hns), walk_climb D k hns]
  cases k with
  | zero =>
    refine ⟨by simp, fun hh => ?_⟩
    exact absurd rfl (hns _ (mem_of_mem_head? hh)).2.2.1
  | succ k =>
    rw [hcl, replicate_succ, cons_append, hasPrefix_joinSlash _ (by decide)] at h
    cases h

/-- The path is, cleaned, the destination or below it. -/
def Inside (dest path : Str) : Prop := Below dest (clean path)

instance (dest path : Str) : Decidable (Inside dest path) := inferInstanceAs (Decidable (Below _ _))

section

variable (hD : ∀ n ∈ D, Proper n)
include hD

theorem inside_absPath (hP : AllProper P) : Inside (absPath D) (absPath P) ↔ D <+: P := by
  rw [Inside, clean_absPath hP, below_iff_prefix h0 hD hP]

theorem inside_leadsTo (name : Str) : Inside (absPath D) (join [absPath D, clean name]) ↔ D <+: leadsTo D name := by
  rw [join_absPath hD]
  exact inside_absPath h0 hD (walk_names hD fun _ => mem_comps)

theorem inside_parentOf (name : Str) :
    Inside (absPath D) (join [absPath D, dir (clean name)]) ↔ D <+: parentOf D name := by
  rw [join_absPath hD]
  exact inside_absPath h0 hD (walk_names hD fun _ => mem_comps)

theorem fileGood_iff (hdr : Header) : FileGood (absPath D) (Inside (absPath D)) hdr.cleaned ↔ Stays D hdr.name := by
  rw [stays_iff h0, ← inside_leadsTo h0 hD, ← inside_parentOf h0 hD]
  rfl

end

/-- What the names of a layer must not be: besides leading out, the destination under a whiteout's
name and the whiteout of the directory above. -/
def LayerStays (dest name : Str) : Prop :=
  Stays (comps dest) name ∧ (hasPrefix (clean name) ".wh..wh.".toList = true ∨
    (isWhiteout dest = true → leadsTo (comps dest) name ≠ comps dest) ∧
      leadsTo (comps dest) name ≠ comps dest ++ [whiteoutUp])

instance (dest name : Str) : Decidable (LayerStays dest name) := inferInstanceAs (Decidable (_ ∧ (_ ∨ _ ∧ _)))

omit h0 in
theorem clean_touchedPath (hP : AllProper P) : clean (touchedPath (absPath P)) = touchedPath (absPath P) := by
  rcases eq_nil_or_concat' P with rfl | ⟨Q, b, rfl⟩
  · decide
  have hQ : AllProper Q := (forall_mem_append.mp hP).1
  unfold touchedPath
  split
  · rw [dir_absPath_snoc hQ (hP b (by simp)), join_absPath hQ,
      clean_absPath (walk_names hQ fun _ => mem_comps)]
  · exact clean_absPath hP

theorem entryGood_iff (hD : AllProper D) (hdr : Header) :
    EntryGood (absPath D) (Inside (absPath D)) hdr.cleaned ↔ LayerStays (absPath D) hdr.name := by
  have hP := leadsTo_names hD hdr.name
  have hpath : join [absPath D, hdr.cleaned.name] = absPath (leadsTo D hdr.name) := join_absPath hD _
  have hparent : (hasSuffix hdr.cleaned.name ['/'] = false →
      Inside (absPath D) (join [absPath D, dir hdr.cleaned.name])) ↔
      (hasSuffix (clean hdr.name) ['/'] = false → D <+: parentOf D hdr.name) :=
    imp_congr_right fun _ => inside_parentOf h0 hD _
  rw [EntryGood, LayerStays, comps_absPath_proper hD, hpath, hparent, Inside, clean_touchedPath hP]
  by_cases hmeta : hasPrefix (clean hdr.name) ".wh..wh.".toList
  · have hstays := @stays_of_metadata D _ hmeta
    refine iff_of_true ⟨((stays_iff h0 _).mp hstays).1, fun h => ?_⟩ ⟨hstays, .inl hmeta⟩
    exact absurd (h.symm.trans hmeta) Bool.false_ne_true
  · rw [stays_iff h0, or_iff_right hmeta]
    have hno : isMetadata hdr.cleaned = false := Bool.eq_false_iff.mpr hmeta
    constructor
    · rintro ⟨hin, htouched⟩
      obtain ⟨hpre, hrest⟩ := (below_touchedPath h0 hD hP (leadsTo_of_parent h0 hin)).mp (htouched hno)
      exact ⟨⟨hin, hpre⟩, hrest⟩
    · rintro ⟨⟨hin, hpre⟩, hrest⟩
      exact ⟨hin, fun _ => (below_touchedPath h0 hD hP (.inl hpre)).mpr ⟨hpre, hrest⟩⟩

end Names

/-! ## Logged calls -/

/-- The calls with the paths of the mutating ones logged. What is done in the temporary directory of
`UnpackLayer` is not. -/
def Calls.logged {σ : Type} (c : Calls σ) : Calls (σ × List Str) where
  lstat path s := c.lstat path s.1
  mkdirAll path perm := (c.mkdirAll path perm).logging path
  removeAll path := (c.removeAll path).logging path
  createTarFile path dir hdr data lchown opts := (c.createTarFile path dir hdr data lchown opts).logging path
  utimesNano path atime mtime := (c.utimesNano path atime mtime).logging path
  tempDir := c.tempDir.silent
  createPlnkFile path dir hdr data lchown opts := (c.createPlnkFile path dir hdr data lchown opts).silent
  openPlnkFile path := (c.openPlnkFile path).silent
  removeTempDir path := (c.removeTempDir path).silent

/-- The program keeps a property of the log. -/
def Keeps {σ α : Type} (I : List Str → Prop) (m : Proc (σ × List Str) Err α) : Prop :=
  Triple (fun s => I s.2) m (fun _ s => I s.2) (fun s => I s.2)

/-- It does, and what it returns has a property. -/
abbrev Gives {σ α : Type} (I : List Str → Prop) (m : Proc (σ × List Str) Err α) (Q : α → Prop) : Prop :=
  Triple (fun s => I s.2) m (fun a s => Q a ∧ I s.2) (fun s => I s.2)

section Keeps

variable {σ : Type} {c : Calls σ} {dest : Str} {I : List Str → Prop}

theorem ensureParent_preserves {J : σ → Prop} {name : Str} {perm : Perm}
    (h : hasSuffix name ['/'] = false → Preserves J (c.mkdirAll (join [dest, dir name]) perm)) :
    Preserves J (ensureParent c dest name perm) := by
  unfold ensureParent
  split
  next => exact .pure _ fun _ h => h
  next hs =>
    refine .read_any fun v => ?_
    split
    next => exact h (by simpa using hs)
    next => exact .pure _ fun _ h => h

variable {dirs : List Header}

theorem entryPath_spec {τ : Type} {R : τ → Prop} (dest name : Str) :
    Triple R (entryPath dest name) (fun path s => path = join [dest, name] ∧ R s) R := by
  unfold entryPath
  dsimp only
  split
  next => exact .fail _ fun _ h => h
  next =>
    split
    · exact .fail _ fun _ h => h
    · exact .pure _ fun _ h => ⟨rfl, h⟩

variable {hdr : Header}

theorem clearPath_keeps {path : Str} (h : ∀ l, I l → I (l ++ [path])) : Keeps I (clearPath c.logged path hdr) := by
  refine .read_any fun v => ?_
  split
  next =>
    split
    · exact .pure _ fun _ h => h
    · exact .logging h
  next => exact .pure _ fun _ h => h

variable {data : Bytes} {st : LayerState}

theorem layerSource_keeps : Gives I (layerSource c.logged hdr data st) fun _ => ¬ BadPlnk st.plnk hdr := by
  unfold layerSource
  split
  next h =>
    dsimp only
    split
    next => exact .fail _ fun _ h => h
    next srcHdr hl =>
      refine Triple.silent.bind fun tmp => .pure _ fun _ hI => ⟨fun hbad => hbad.2.2 ?_, hI⟩
      obtain ⟨l₁, l₂, hsplit, -⟩ := lookup_eq_some_iff.mp hl
      simp [LayerState.plnk, hsplit]
  next h => exact .pure _ fun _ hI => ⟨fun hbad => h ⟨hbad.1, hbad.2.1⟩, hI⟩

variable {good : Str → Prop} (hI : ∀ p l, good p → I l → I (l ++ [p])) (options : TarOptions)

/-- The directories remembered for the end may be logged. -/
def DirsGood (dest : Str) (good : Str → Prop) (dirs : List Header) : Prop :=
  ∀ hdr ∈ dirs, good (join [dest, hdr.name])

theorem DirsGood.snoc (h : DirsGood dest good dirs) (hgood : good (join [dest, hdr.name])) :
    DirsGood dest good (if hdr.typeflag = .dir then dirs ++ [hdr] else dirs) := by
  split
  · exact forall_mem_append.mpr ⟨h, forall_mem_singleton.mpr hgood⟩
  · exact h

theorem dirs_withDir (st : LayerState) (hdr : Header) :
    (st.withDir hdr).dirs = if hdr.typeflag = .dir then st.dirs ++ [hdr] else st.dirs := by
  unfold LayerState.withDir
  split <;> rfl

theorem plnk_withDir (st : LayerState) (hdr : Header) : (st.withDir hdr).plnk = st.plnk := by
  unfold LayerState.withDir
  split <;> rfl

include hI

theorem layerEntry_keeps (hdirs : DirsGood dest good st.dirs) (hgood : good (touchedPath (join [dest, hdr.name]))) :
    Gives I (layerEntry c.logged dest hdr data st) fun st' => DirsGood dest good st'.dirs ∧ st'.plnk = st.plnk ∧
      (isWhiteout (join [dest, hdr.name]) ∨ ¬ BadPlnk st.plnk hdr) := by
  refine (entryPath_spec dest hdr.name).bind fun path => .fact fun hpath => ?_
  subst hpath
  dsimp only
  split
  next hwh =>
    rw [touchedPath, isWhiteout, if_pos hwh] at hgood
    refine (Triple.logging fun l => hI _ l hgood).bind fun _ => .pure _ fun _ h => ?_
    exact ⟨⟨hdirs, rfl, .inl hwh⟩, h⟩
  next hwh =>
    rw [touchedPath, isWhiteout, if_neg hwh] at hgood
    have hlog := fun l => hI _ l hgood
    refine (clearPath_keeps hlog).bind fun _ => layerSource_keeps.bind fun src => .fact fun hbad => ?_
    refine (Triple.logging hlog).bind fun _ => .pure _ fun _ h => ?_
    exact ⟨⟨dirs_withDir st hdr ▸ hdirs.snoc hgood, plnk_withDir st hdr, .inr hbad⟩, h⟩

theorem layerRound_keeps {next : LayerState → Proc (σ × List Str) Err Nat} {R : Prop}
    (hdirs : DirsGood dest good st.dirs)
    (hgood : isMetadata hdr = false → good (touchedPath (join [dest, hdr.name])))
    (hnext : ¬ Stops dest st.plnk hdr → ∀ st', DirsGood dest good st'.dirs →
      st'.plnk = plnkAfter st.plnk hdr → Gives I (next st') fun _ => R) :
    Gives I (layerRound c.logged dest hdr data st next) fun _ => ¬ Stops dest st.plnk hdr ∧ R := by
  unfold layerRound
  split
  next hmeta =>
    have hgo : ¬ Stops dest st.plnk hdr := fun h =>
      Bool.false_ne_true (h.1.symm.trans hmeta)
    refine .post (?_ : Gives I _ fun _ => R) fun _ _ h => ⟨⟨hgo, h.1⟩, h.2⟩
    split
    next hplnk =>
      have hafter : plnkAfter st.plnk hdr = base hdr.name :: st.plnk := if_pos hplnk
      unfold keepPlnkFile
      dsimp only
      split
      next =>
        refine Triple.silent.bind fun tmp => .andFinally (Triple.silent.bind fun _ => hnext hgo _ hdirs hafter.symm)
          (fun _ => .silent (I := fun l => R ∧ I l)) Triple.silent
      next => exact Triple.silent.bind fun _ => hnext hgo _ hdirs hafter.symm
    next hplnk => exact hnext hgo st hdirs (if_neg hplnk).symm
  next hmeta =>
    have hno : isMetadata hdr = false := Bool.eq_false_iff.mpr hmeta
    have hafter : plnkAfter st.plnk hdr = st.plnk := plnkAfter_of_not_metadata hno
    refine (layerEntry_keeps hI hdirs (hgood hno)).bind fun st' => .fact fun ⟨hdirs', hplnk, hgo⟩ => ?_
    have hgo : ¬ Stops dest st.plnk hdr := by
      rintro ⟨-, hwh', hbad'⟩
      rcases hgo with hwh | hbad
      · exact Bool.false_ne_true (hwh'.symm.trans hwh)
      · exact hbad hbad'
    exact (hnext hgo st' hdirs' (hplnk.trans hafter.symm)).post fun _ _ h => ⟨⟨hgo, h.1⟩, h.2⟩

theorem unpackLayerLoop_keeps (es : List Entry) : ∀ st : LayerState, DirsGood dest good st.dirs →
    (∀ e ∈ reached dest st.plnk es, EntryGood dest good e.hdr.cleaned) →
    Gives I (unpackLayerLoop c.logged dest es st) fun _ => reached dest st.plnk es = es := by
  induction es with
  | nil =>
    intro st hdirs _
    exact (Triple.forM st.dirs fun hdr hmem => .logging fun l => hI _ l (hdirs hdr hmem)).bind fun _ =>
      .pure _ fun _ h => ⟨rfl, h⟩
  | cons e es ih =>
    intro st hdirs hgood
    have hhead : EntryGood dest good e.hdr.cleaned := hgood e mem_cons_self
    refine (ensureParent_preserves fun hs => .logging fun l => hI _ l (hhead.1 hs)).bind fun _ => ?_
    have hdirs' : DirsGood dest good { st with size := st.size + e.hdr.cleaned.size }.dirs := hdirs
    have hrest : ¬ Stops dest st.plnk e.hdr.cleaned → ∀ st', DirsGood dest good st'.dirs →
        st'.plnk = plnkAfter st.plnk e.hdr.cleaned → Gives I (unpackLayerLoop c.logged dest es st')
          fun _ => reached dest (plnkAfter st.plnk e.hdr.cleaned) es = es := by
      intro hgo st' hd hp
      rw [← hp]
      refine ih st' hd fun e' he => hgood e' ?_
      rw [reached, if_neg hgo, ← hp]
      exact mem_cons_of_mem _ he
    refine (layerRound_keeps hI hdirs' hhead.2 hrest).post fun _ _ h => ⟨?_, h.2⟩
    have hgo : ¬ Stops dest st.plnk e.hdr.cleaned := h.1.1
    rw [reached, if_neg hgo, h.1.2]

omit hI in
/-- What the loop does after a path was logged leaves it in the log. -/
theorem unpackLayerLoop_grow (hgrow : ∀ p l, I l → I (l ++ [p])) (es : List Entry)
    (st : LayerState) : Keeps I (unpackLayerLoop c.logged dest es st) := by
  refine (unpackLayerLoop_keeps (fun p l (_ : True) => hgrow p l) es st (fun _ _ => trivial)
    fun _ _ => ?_).post fun _ _ h => h.2
  exact ⟨fun _ => trivial, fun _ => trivial⟩

/-- On good paths the calls of `Unpack` keep `J`. -/
structure Calls.KeepOn (c : Calls σ) (dest : Str) (options : TarOptions) (good : Str → Prop) (J : σ → Prop) :
    Prop where
  removeAll {path : Str} : good path → Preserves J (c.removeAll path)
  createTarFile {path : Str} (hdr : Header) (data : Bytes) :
    good path → Preserves J (c.createTarFile path dest hdr data (!options.noLchown) options.chownOpts)
  utimesNano {path : Str} (atime mtime : Option Time) : good path → Preserves J (c.utimesNano path atime mtime)

section KeepOn

omit hI

variable {options : TarOptions} {J : σ → Prop} (hc : c.KeepOn dest options good J)

include hc

theorem unpackEntry_preserves (data : Bytes) (hdirs : DirsGood dest good dirs) (hgood : good (join [dest, hdr.name])) :
    Triple J (unpackEntry c dest options hdr data dirs) (fun dirs' s => DirsGood dest good dirs' ∧ J s) J := by
  refine (entryPath_spec dest hdr.name).bind fun path => .fact fun hpath => ?_
  subst hpath
  have hfile : Triple J (unpackFile c dest options (join [dest, hdr.name]) hdr data dirs)
      (fun dirs' s => DirsGood dest good dirs' ∧ J s) J :=
    (hc.createTarFile hdr data hgood).bind fun _ => .pure _ fun _ h => ⟨hdirs.snoc hgood, h⟩
  refine .read_any fun v => ?_
  split
  next fi =>
    split_ifs
    · exact .fail _ fun _ h => h
    · exact .fail _ fun _ h => h
    · exact .pure _ fun _ h => ⟨hdirs, h⟩
    · exact hfile
    · exact (hc.removeAll hgood).bind fun _ => hfile
  next => exact hfile

/-- Every round keeps `J`, and so does the loop at the end. -/
theorem unpackLoop_preserves (es : List Entry) (hgood : ∀ e ∈ es, options.excludes e.hdr.cleaned.name = false →
    Preserves J (ensureParent c dest e.hdr.cleaned.name 0o777) ∧ good (join [dest, e.hdr.cleaned.name])) :
    ∀ dirs, DirsGood dest good dirs → Preserves J (unpackLoop c dest options es dirs) := by
  induction es with
  | nil => exact fun dirs hdirs => .forM dirs fun hdr hmem => hc.utimesNano _ _ (hdirs hdr hmem)
  | cons e es ih =>
    intro dirs hdirs
    have htail := ih (forall_mem_cons.mp hgood).2
    rw [unpackLoop]
    split
    next => exact htail dirs hdirs
    next hex =>
      obtain ⟨hparent, hpath⟩ := hgood e mem_cons_self (Bool.eq_false_iff.mpr hex)
      refine hparent.bind fun _ => ?_
      exact (unpackEntry_preserves hc e.data hdirs hpath).bind fun dirs' => .fact fun hdirs' => htail dirs' hdirs'

end KeepOn

theorem logged_keepOn : c.logged.KeepOn dest options good fun s => I s.2 where
  removeAll h := .logging fun l => hI _ l h
  createTarFile _ _ h := .logging fun l => hI _ l h
  utimesNano _ _ h := .logging fun l => hI _ l h

theorem unpackLoop_keeps (es : List Entry) (dirs : List Header) (hdirs : DirsGood dest good dirs)
    (hgood : ∀ e ∈ es, options.excludes e.hdr.cleaned.name = false → FileGood dest good e.hdr.cleaned) :
    Keeps I (unpackLoop c.logged dest options es dirs) := by
  refine unpackLoop_preserves (logged_keepOn hI options) es (fun e he hex => ?_) dirs hdirs
  obtain ⟨hparent, hpath⟩ := hgood e he hex
  exact ⟨ensureParent_preserves fun hs => .logging fun l => hI _ l (hparent hs), hpath⟩

omit hI in
theorem unpackLoop_grow (hgrow : ∀ p l, I l → I (l ++ [p])) (options : TarOptions) (es : List Entry)
    (dirs : List Header) : Keeps I (unpackLoop c.logged dest options es dirs) := by
  exact unpackLoop_keeps (fun p l (_ : True) => hgrow p l) options es dirs (fun _ _ => trivial)
    fun _ _ _ => ⟨fun _ => trivial, trivial⟩

end Keeps

/-! ## A file system that gives one answer -/

/-- The calls of a file system where every `Lstat` gives the same answer and every other call
succeeds. -/
def Calls.answering (a : Except Errno Kind) : Calls Unit where
  lstat _ _ := a
  mkdirAll _ _ := pure ()
  removeAll _ := pure ()
  createTarFile _ _ _ _ _ _ := pure ()
  utimesNano _ _ _ := pure ()
  tempDir := pure "/tmp".toList
  createPlnkFile _ _ _ _ _ _ := pure ()
  openPlnkFile _ := pure []
  removeTempDir _ := pure ()

/-- On this file system the program returns, with a property of what it returns. -/
def Returns {α : Type} (m : Proc (Unit × List Str) Err α) (Q : α → Prop) : Prop :=
  Triple (fun _ => True) m (fun a _ => Q a) (fun _ => False)

/-- The log holds a path without the property. -/
def Bad (good : Str → Prop) (l : List Str) : Prop := ∃ p ∈ l, ¬ good p

/-- On this file system the program logs a path without the property. -/
def LogsBad {α : Type} (good : Str → Prop) (m : Proc (Unit × List Str) Err α) : Prop :=
  Triple (fun _ => True) m (fun _ s => Bad good s.2) (fun s => Bad good s.2)

section Answering

variable {α β : Type} {good : Str → Prop} {m : Proc (Unit × List Str) Err α}
  {f : α → Proc (Unit × List Str) Err β} {Q : α → Prop}

theorem Returns.bind {R : β → Unit × List Str → Prop} {F : Unit × List Str → Prop} (h : Returns m Q)
    (hf : ∀ a, Q a → Triple (fun _ => True) (f a) R F) : Triple (fun _ => True) (m >>= f) R F :=
  Triple.bind (h.mono (fun _ h => h) (fun _ _ h => h) fun _ h => h.elim) fun a s hq => hf a hq s trivial

theorem LogsBad.bind (h : LogsBad good m) (hf : ∀ a, Keeps (Bad good) (f a)) : LogsBad good (m >>= f) :=
  Triple.bind h hf

theorem returns_logging (a : α) (p : Str) : Returns ((pure a : Proc Unit Err α).logging p) fun _ => True :=
  Triple.iff_ends.mpr fun _ _ => trivial

theorem returns_silent (a : α) : Returns ((pure a : Proc Unit Err α).silent) fun _ => True :=
  Triple.iff_ends.mpr fun _ _ => trivial

theorem logsBad_logging (m : Proc Unit Err α) {p : Str} (h : ¬ good p) : LogsBad good (m.logging p) :=
  Triple.logging (I := fun _ => True) (J := Bad good) fun _ _ => ⟨p, by simp, h⟩

theorem Bad.append (p : Str) (l : List Str) (h : Bad good l) : Bad good (l ++ [p]) := by
  obtain ⟨p', hmem, hbad⟩ := h
  exact ⟨p', by simp [hmem], hbad⟩

variable {a : Except Errno Kind} {dest : Str} {options : TarOptions}

theorem ensureParent_returns (name : Str) (perm : Perm) :
    Returns (ensureParent (answering a).logged dest name perm) fun _ => True := by
  unfold ensureParent
  split
  · exact .pure _ fun _ _ => trivial
  refine .read_any fun v => ?_
  split
  · exact returns_logging _ _
  · exact .pure _ fun _ _ => trivial

theorem ensureParent_logsBad {name : Str} (perm : Perm) (hs : hasSuffix name ['/'] = false)
    (hbad : ¬ good (join [dest, dir name])) :
    LogsBad good (ensureParent (answering (.error .enoent)).logged dest name perm) := by
  unfold ensureParent
  rw [hs]
  exact .read_bind_of_eq (v := .error .enoent) (fun _ _ => rfl) (logsBad_logging _ hbad)

theorem clearPath_returns (path : Str) (hdr : Header) :
    Returns (clearPath (answering a).logged path hdr) fun _ => True := by
  refine .read_any fun v => ?_
  split
  · split
    · exact .pure _ fun _ _ => trivial
    · exact returns_logging _ _
  · exact .pure _ fun _ _ => trivial

variable {hdr : Header} {st : LayerState}

theorem layerSource_returns (data : Bytes) (h : ¬ BadPlnk st.plnk hdr) :
    Returns (layerSource (answering a).logged hdr data st) fun _ => True := by
  unfold layerSource
  split
  next hlink =>
    dsimp only
    split
    next hl =>
      refine absurd ⟨hlink.1, hlink.2, fun hmem => ?_⟩ h
      obtain ⟨k, hk, hkey⟩ := mem_map.mp hmem
      have := lookup_eq_none_iff.mp hl k hk
      simp [hkey] at this
    next => exact (returns_silent _).bind fun _ _ => .pure _ fun _ _ => trivial
  next => exact .pure _ fun _ _ => trivial

/-- Where nothing exists, a round of `Unpack` hands the path to `createTarFile`. -/
theorem unpackEntry_answering (hdr : Header) (data : Bytes) (dirs : List Header) :
    unpackEntry (answering (.error .enoent)).logged dest options hdr data dirs =
      entryPath dest hdr.name >>= fun path =>
        unpackFile (answering (.error .enoent)).logged dest options path hdr data dirs :=
  rfl

variable {D : List Str} (h0 : D ≠ []) (hD : ∀ n ∈ D, Proper n) {name : Str}
  (hpass : D <+: leadsTo D name ∨ leadsTo D name = D.dropLast)

include h0 hD hpass

theorem entryPath_returns : Returns (entryPath (absPath D) (clean name))
    fun path => path = absPath (leadsTo D name) := by
  rw [entryPath_eq h0 hD, if_pos hpass]
  exact .pure _ fun _ _ => rfl

section

variable (hname : hdr.name = clean name)
include hname

theorem layerEntry_returns (data : Bytes) (h : isWhiteout (absPath (leadsTo D name)) ∨ ¬ BadPlnk st.plnk hdr) :
    Returns (layerEntry (answering a).logged (absPath D) hdr data st) fun st' => st'.plnk = st.plnk := by
  unfold layerEntry
  rw [hname]
  refine (entryPath_returns h0 hD hpass).bind fun path hpath => ?_
  subst hpath
  dsimp only
  split
  next => exact (returns_logging _ _).bind fun _ _ => .pure _ fun _ _ => rfl
  next hwh =>
    refine (clearPath_returns _ _).bind fun _ _ =>
      (layerSource_returns data (h.resolve_left hwh)).bind fun src _ => ?_
    exact (returns_logging _ _).bind fun _ _ => .pure _ fun _ _ => plnk_withDir st hdr

theorem layerEntry_logsBad (data : Bytes) (hbad : ¬ good (touchedPath (absPath (leadsTo D name)))) :
    LogsBad good (layerEntry (answering (.ok .other)).logged (absPath D) hdr data st) := by
  unfold layerEntry
  rw [hname]
  refine (entryPath_returns h0 hD hpass).bind fun path hpath => ?_
  subst hpath
  dsimp only
  split
  next hwh =>
    rw [touchedPath, isWhiteout, if_pos hwh] at hbad
    exact (logsBad_logging _ hbad).bind fun _ => .pure _ fun _ h => h
  next hwh =>
    rw [touchedPath, isWhiteout, if_neg hwh] at hbad
    have hclear : LogsBad good (clearPath (answering (.ok .other)).logged (absPath (leadsTo D name)) hdr) :=
      .read_bind_of_eq (v := .ok .other) (fun _ _ => rfl) (logsBad_logging _ hbad)
    refine hclear.bind fun _ => layerSource_keeps.bind fun src => .fact fun _ => ?_
    exact (Triple.logging (Bad.append _)).bind fun _ => .pure _ fun _ h => h

theorem layerRound_logsBad (data : Bytes)
    {next : LayerState → Proc (Unit × List Str) Err Nat}
    (hgo : ¬ Stops (absPath D) st.plnk hdr)
    (hnext : ∀ st', st'.plnk = plnkAfter st.plnk hdr → LogsBad good (next st')) :
    LogsBad good (layerRound (answering a).logged (absPath D) hdr data st next) := by
  unfold layerRound
  split
  next =>
    split
    next hplnk =>
      have hafter : plnkAfter st.plnk hdr = base hdr.name :: st.plnk := if_pos hplnk
      unfold keepPlnkFile
      dsimp only
      split
      next =>
        refine (returns_silent _).bind fun tmp _ => .andFinally
          ((returns_silent _).bind fun _ _ => hnext _ hafter.symm)
          (fun _ => .silent) Triple.silent
      next => exact (returns_silent _).bind fun _ _ => hnext _ hafter.symm
    next hplnk => exact hnext st (if_neg hplnk).symm
  next hmeta =>
    have hno : isMetadata hdr = false := Bool.eq_false_iff.mpr hmeta
    have hpath : join [absPath D, hdr.name] = absPath (leadsTo D name) := by
      rw [hname]; exact join_absPath hD _
    have hok : isWhiteout (absPath (leadsTo D name)) ∨ ¬ BadPlnk st.plnk hdr := by
      by_contra hcon
      obtain ⟨hwh, hbad⟩ := not_or.mp hcon
      exact hgo ⟨hno, by rw [hpath]; exact Bool.eq_false_iff.mpr hwh, not_not.mp hbad⟩
    refine (layerEntry_returns h0 hD hpass hname data hok).bind fun st' hst' => ?_
    exact hnext st' (hst'.trans (plnkAfter_of_not_metadata hno).symm)

theorem unpackEntry_returns (data : Bytes) (dirs : List Header) :
    Returns (unpackEntry (answering (.error .enoent)).logged (absPath D) options hdr data dirs)
      fun _ => True := by
  rw [unpackEntry_answering, hname]
  exact (entryPath_returns h0 hD hpass).bind fun path _ =>
    (returns_logging _ _).bind fun _ _ => .pure _ fun _ _ => trivial

theorem unpackEntry_logsBad (data : Bytes) (dirs : List Header) (hbad : ¬ good (absPath (leadsTo D name))) :
    LogsBad good (unpackEntry (answering (.error .enoent)).logged (absPath D) options hdr data dirs) := by
  rw [unpackEntry_answering, hname]
  refine (entryPath_returns h0 hD hpass).bind fun path hpath => ?_
  subst hpath
  exact (logsBad_logging _ hbad).bind fun _ => .pure _ fun _ h => h

end

end Answering

section Loops

variable {D : List Str} (h0 : D ≠ []) (hD : ∀ n ∈ D, Proper n)

include h0 hD

/-- A layer with a bad name is caught on one of two file systems: where nothing exists the parent
directories are made, where everything exists the paths are removed. -/
theorem unpackLayerLoop_logsBad (es : List Entry) : ∀ plnk : List Str,
    (∃ e ∈ reached (absPath D) plnk es, ¬ EntryGood (absPath D) (Inside (absPath D)) e.hdr.cleaned) →
    ∃ a, ∀ st : LayerState, st.plnk = plnk →
      LogsBad (Inside (absPath D)) (unpackLayerLoop (answering a).logged (absPath D) es st) := by
  induction es with
  | nil =>
    rintro plnk ⟨e, he, -⟩
    cases he
  | cons e es ih =>
    rintro plnk ⟨e', he', hbad⟩
    by_cases hparent : hasSuffix (clean e.hdr.name) ['/'] = false → D <+: parentOf D e.hdr.name
    · have hpass := leadsTo_of_parent h0 hparent
      by_cases hhead : EntryGood (absPath D) (Inside (absPath D)) e.hdr.cleaned
      · -- the bad name comes later, and this round gets there
        have hgo : ¬ Stops (absPath D) plnk e.hdr.cleaned := by
          intro hstop
          rw [reached, if_pos hstop, mem_singleton] at he'
          exact hbad (he' ▸ hhead)
        have htail : e' ∈ reached (absPath D) (plnkAfter plnk e.hdr.cleaned) es := by
          rw [reached, if_neg hgo] at he'
          exact (mem_cons.mp he').resolve_left fun h => hbad (h ▸ hhead)
        obtain ⟨a, ha⟩ := ih _ ⟨e', htail, hbad⟩
        refine ⟨a, fun st hst => ?_⟩
        subst hst
        exact (ensureParent_returns _ _).bind fun _ _ =>
          layerRound_logsBad h0 hD hpass rfl e.data hgo ha
      · refine ⟨.ok .other, fun st hst => ?_⟩
        refine (ensureParent_returns _ _).bind fun _ _ => ?_
        have hentry : isMetadata e.hdr.cleaned = false ∧
            ¬ Inside (absPath D) (touchedPath (absPath (leadsTo D e.hdr.name))) := by
          have hpath : join [absPath D, e.hdr.cleaned.name] = absPath (leadsTo D e.hdr.name) := join_absPath hD _
          rw [EntryGood, not_and, hpath] at hhead
          exact Classical.not_imp.mp (hhead fun hs => (inside_parentOf h0 hD _).mpr (hparent hs))
        have hmetadata : ¬ hasPrefix e.hdr.cleaned.name ".wh..wh.".toList := Bool.eq_false_iff.mp hentry.1
        rw [layerRound, if_neg hmetadata]
        exact (layerEntry_logsBad h0 hD hpass rfl e.data hentry.2).bind fun st' =>
          unpackLayerLoop_grow Bad.append es st'
    · refine ⟨.error .enoent, fun st hst => ?_⟩
      obtain ⟨hs, hout⟩ := Classical.not_imp.mp hparent
      rw [← inside_parentOf h0 hD] at hout
      refine (ensureParent_logsBad _ hs hout).bind fun _ => ?_
      refine (layerRound_keeps (R := True) (fun p l (_ : True) => Bad.append p l) (fun _ _ => trivial)
        (fun _ => trivial) fun _ st' _ _ => ?_).post fun _ _ h => h.2
      exact (unpackLayerLoop_grow Bad.append es st').post fun _ _ h => ⟨trivial, h⟩

/-- Where nothing exists, `Unpack` hands every path to a call: it logs a bad one, or returns and no name was bad. -/
theorem unpackLoop_answering (options : TarOptions) (es : List Entry) : ∀ dirs, Triple (fun _ => True)
    (unpackLoop (answering (.error .enoent)).logged (absPath D) options es dirs)
    (fun _ s => Bad (Inside (absPath D)) s.2 ∨
      ∀ e ∈ es, options.excludes e.hdr.cleaned.name = false → Stays D e.hdr.name)
    (fun s => Bad (Inside (absPath D)) s.2) := by
  have hlogged : ∀ {m : Proc (Unit × List Str) Err Unit} {R : Prop}, LogsBad (Inside (absPath D)) m →
      Triple (fun _ => True) m (fun _ s => Bad (Inside (absPath D)) s.2 ∨ R) (fun s => Bad (Inside (absPath D)) s.2) :=
    fun h => h.post fun _ _ => .inl
  induction es with
  | nil =>
    intro dirs
    refine .mono (.forM (I := fun _ => True) dirs fun hdr _ => returns_logging _ _) (fun _ h => h) ?_ fun _ h => h.elim
    exact fun _ _ _ => .inr nofun
  | cons e es ih =>
    intro dirs
    rw [unpackLoop]
    split
    next hex =>
      exact (ih dirs).post fun _ s => Or.imp_right fun hes => forall_mem_cons.mpr ⟨fun h => absurd (hex.symm.trans h) nofun, hes⟩
    next =>
      by_cases hparent : hasSuffix (clean e.hdr.name) ['/'] = false → D <+: parentOf D e.hdr.name
      · have hpass := leadsTo_of_parent h0 hparent
        refine (ensureParent_returns _ _).bind fun _ _ => ?_
        by_cases hin : D <+: leadsTo D e.hdr.name
        · refine (unpackEntry_returns h0 hD hpass rfl e.data dirs).bind fun dirs' _ =>
            (ih dirs').post fun _ s => Or.imp_right fun hes => ?_
          exact forall_mem_cons.mpr ⟨fun _ => (stays_iff h0 _).mpr ⟨hparent, hin⟩, hes⟩
        · rw [← inside_absPath h0 hD (leadsTo_names hD _)] at hin
          exact hlogged ((unpackEntry_logsBad h0 hD hpass rfl e.data dirs hin).bind fun dirs' =>
            unpackLoop_grow Bad.append options es dirs')
      · obtain ⟨hs, hout⟩ := Classical.not_imp.mp hparent
        rw [← inside_parentOf h0 hD] at hout
        have hc : (answering (.error .enoent)).logged.KeepOn (absPath D) options (fun _ => True) _ :=
          logged_keepOn (I := Bad (Inside (absPath D))) (fun p l _ => Bad.append p l) options
        exact hlogged ((ensureParent_logsBad _ hs hout).bind fun _ =>
          (unpackEntry_preserves hc e.data (fun _ _ => trivial) trivial).bind
            fun dirs' => .fact fun _ => unpackLoop_grow Bad.append options es dirs')

end Loops

/-! ## The names that keep every file system safe -/

/-- The program hands no path outside the destination to a mutating call, whatever file system it
runs on, and fails if one of the entries leads out. -/
def Confined {α : Type} (dest : Str) (entries : List Entry) (m : ∀ σ : Type, Calls σ → Proc σ Err α) : Prop :=
  ∀ (σ : Type) (c : Calls σ) (s : σ),
    (∀ p ∈ (m _ c.logged (s, [])).2.2, Inside dest p) ∧
      ((∃ e ∈ entries, ¬ Inside dest (join [dest, clean e.hdr.name])) → ∃ err, (m _ c.logged (s, [])).1 = .error err)

/-- Every path of the log is inside the destination. -/
def AllInside (dest : Str) (l : List Str) : Prop := ∀ p ∈ l, Inside dest p

theorem AllInside.append {dest : Str} (p : Str) (l : List Str) (hp : Inside dest p)
    (hl : AllInside dest l) : AllInside dest (l ++ [p]) :=
  forall_mem_append.mpr ⟨hl, forall_mem_singleton.mpr hp⟩

section Confined

variable {D : List Str} (h0 : D ≠ []) (hD : ∀ n ∈ D, Proper n)

include h0 hD

theorem unpackLayer_confined (entries : List Entry) :
    Confined (absPath D) entries (fun _ c => unpackLayer c (absPath D) entries) ↔
      ∀ e ∈ reached (absPath D) [] entries, LayerStays (absPath D) e.hdr.name := by
  constructor
  · intro hconf
    by_contra hbad
    push Not at hbad
    obtain ⟨e, he, hbad⟩ := hbad
    rw [← entryGood_iff h0 hD] at hbad
    obtain ⟨a, ha⟩ := unpackLayerLoop_logsBad h0 hD entries [] ⟨e, he, hbad⟩
    obtain ⟨p, hp, hout⟩ := (ha ⟨0, [], [], []⟩ rfl).snd (s := ((), [])) trivial
    exact hout ((hconf Unit (.answering a) ()).1 p hp)
  · intro hstays σ c s
    have hrun := unpackLayerLoop_keeps (c := c) AllInside.append entries ⟨0, [], [], []⟩
      (fun _ h => by cases h) fun e he => (entryGood_iff h0 hD e.hdr).mpr (hstays e he)
    obtain ⟨hok, herr⟩ := hrun (s, []) (fun _ h => by cases h)
    simp only [unpackLayer]
    rcases hm : unpackLayerLoop c.logged (absPath D) entries ⟨0, [], [], []⟩ (s, []) with ⟨err | a, s'⟩
    · exact ⟨herr _ _ hm, fun _ => ⟨err, rfl⟩⟩
    -- a layer that was unpacked to its end has no entry that leads out
    obtain ⟨hall, hin⟩ := hok _ _ hm
    refine ⟨hin, fun ⟨e, he, hout⟩ => absurd ?_ hout⟩
    have hmem : e ∈ reached (absPath D) [] entries := by
      rw [show reached (absPath D) [] entries = entries from hall]; exact he
    have hstay := (hstays e hmem).1
    rw [comps_absPath_proper hD] at hstay
    exact (inside_leadsTo h0 hD _).mpr hstay.1

theorem unpack_confined (options : TarOptions) (entries : List Entry) :
    Confined (absPath D) entries (fun _ c => unpack c (absPath D) options entries) ↔
      ∀ e ∈ entries, D <+: leadsTo D e.hdr.name ∧
        (options.excludes (clean e.hdr.name) = false → Stays D e.hdr.name) := by
  constructor
  · intro hconf
    obtain ⟨hin, hout⟩ := hconf Unit (.answering (.error .enoent)) ()
    obtain ⟨hok, herr⟩ := unpackLoop_answering h0 hD options entries [] ((), []) trivial
    have hgood : ∀ {l}, Bad (Inside (absPath D)) l → (∀ p ∈ l, Inside (absPath D) p) → False :=
      fun ⟨p, hp, hbad⟩ h => hbad (h p hp)
    simp only [unpack] at hin hout
    rcases hm : unpackLoop (answering (.error .enoent)).logged (absPath D) options entries [] ((), []) with ⟨err | a, s'⟩
    · rw [hm] at hin
      exact (hgood (herr _ _ hm) hin).elim
    rw [hm] at hin hout
    refine fun e he => ⟨?_, (hok _ _ hm).resolve_left (fun h => hgood h hin) e he⟩
    by_contra hlead
    rw [← inside_leadsTo h0 hD] at hlead
    obtain ⟨err, herr⟩ := hout ⟨e, he, hlead⟩
    cases herr
  · intro hstays σ c s
    refine ⟨?_, fun ⟨e, he, hout⟩ => absurd ((inside_leadsTo h0 hD _).mpr (hstays e he).1) hout⟩
    have hrun := unpackLoop_keeps (c := c) AllInside.append options entries [] (fun _ h => by cases h)
      fun e he hex => (fileGood_iff h0 hD e.hdr).mpr ((hstays e he).2 hex)
    exact hrun.snd (s := (s, [])) nofun

end Confined

/-- **The names with which an extraction is confined.** Of the entries of a layer only those up to
a refused hard link matter. `Unpack` makes no path of an entry that an exclude pattern passes over,
but does not fail for it either. -/
theorem unpack_confined_iff {dest : Str} (habs : isAbs dest = true) (hclean : clean dest = dest)
    (hroot : dest ≠ "/".toList) (options : TarOptions) (entries : List Entry) :
    (Confined dest entries (fun _ c => unpackLayer c dest entries) ↔
      ∀ e ∈ reached dest [] entries, LayerStays dest e.hdr.name) ∧
    (Confined dest entries (fun _ c => unpack c dest options entries) ↔
      ∀ e ∈ entries, comps dest <+: leadsTo (comps dest) e.hdr.name ∧
        (options.excludes (clean e.hdr.name) = false → Stays (comps dest) e.hdr.name)) := by
  obtain ⟨D, hD, rfl⟩ := exists_absPath habs hclean
  have h0 : D ≠ [] := by
    rintro rfl
    exact hroot rfl
  rw [comps_absPath_proper hD]
  exact ⟨unpackLayer_confined h0 hD entries, unpack_confined h0 hD options entries⟩

/-- A file with a name and nothing in it. -/
def emptyFile (name : Str) : Entry :=
  ⟨⟨name, .reg, 0o644, 0, 0, 0, none, none, [], [], 0, 0⟩, []⟩

/-- Extraction with the default options. -/
def defaultOptions : TarOptions := ⟨[], false, none, false⟩

/-- Names that climb and come back below the destination are fine. -/
theorem unpack_confined_dotdot :
    Confined "/d".toList [emptyFile "a/b".toList, emptyFile "../d/x/.wh.y".toList]
        (fun _ c => unpackLayer c "/d".toList [emptyFile "a/b".toList, emptyFile "../d/x/.wh.y".toList]) ∧
      Confined "/d".toList [emptyFile "a/b".toList, emptyFile "../d/x/.wh.y".toList]
        (fun _ c => unpack c "/d".toList defaultOptions
          [emptyFile "a/b".toList, emptyFile "../d/x/.wh.y".toList]) := by
  have h := @unpack_confined_iff "/d".toList (by decide) (by decide) (by decide) defaultOptions
    [emptyFile "a/b".toList, emptyFile "../d/x/.wh.y".toList]
  exact ⟨h.1.mpr (by decide), h.2.mpr (by decide)⟩

/-- The three gaps: the parent directory of `../victim/x`, the directory above under the name `..`,
and the whiteout of it. -/
theorem unpack_leaves_dest :
    (∀ name ∈ ["../victim/x".toList, "..".toList, ".wh...".toList],
      ¬ Confined "/d".toList [emptyFile name] (fun _ c => unpackLayer c "/d".toList [emptyFile name])) ∧
    ∀ name ∈ ["../victim/x".toList, "..".toList],
      ¬ Confined "/d".toList [emptyFile name] (fun _ c => unpack c "/d".toList defaultOptions [emptyFile name]) := by
  have hlayer : ∀ name ∈ ["../victim/x".toList, "..".toList, ".wh...".toList],
      ∃ p ∈ (unpackLayer (answering (.error .enoent)).logged "/d".toList [emptyFile name]
        ((), [])).2.2, ¬ Inside "/d".toList p := by
    decide
  have hunpack : ∀ name ∈ ["../victim/x".toList, "..".toList],
      ∃ p ∈ (unpack (answering (.error .enoent)).logged "/d".toList defaultOptions
        [emptyFile name] ((), [])).2.2, ¬ Inside "/d".toList p := by
    decide
  refine ⟨fun name hname hconf => ?_, fun name hname hconf => ?_⟩
  · obtain ⟨p, hp, hout⟩ := hlayer name hname
    exact hout ((hconf Unit (.answering (.error .enoent)) ()).1 p hp)
  · obtain ⟨p, hp, hout⟩ := hunpack name hname
    exact hout ((hconf Unit (.answering (.error .enoent)) ()).1 p hp)

end DockerEngine.Archive
