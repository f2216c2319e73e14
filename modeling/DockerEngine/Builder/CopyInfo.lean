import DockerEngine.Lib.Filepath

/-!
# The cache key of a copied directory

The directory case of `calcCopyInfo` in `builder/internals.go`: the sums of the entries of the context whose path
begins with that of the directory are sorted, joined with commas and hashed. Paths are joined, and so cleaned, and the
directory gets a separator at its end, which leaves out the entry of the directory itself and its neighbours.
`dirHash_eq_iff` says that the key is the multiset of the sums strictly below the directory.

The path of a context is absolute and clean, as `ioutil.TempDir` makes it, and the hash is any injective function.
-/

namespace DockerEngine.Builder

open Filepath List

/-- A digit of a sum. -/
def isHexDigit (c : Char) : Bool := ('0' ≤ c && c ≤ '9') || ('a' ≤ c && c ≤ 'f')

/-- An entry of `GetSums`: its name, and its sum in hexadecimal. -/
structure FileSum where
  name : Str
  sum : Str
  hex : sum ≠ [] ∧ ∀ c ∈ sum, isHexDigit c = true

/-- The hash that `calcCopyInfo` makes for a directory. -/
def dirHash (sha256 : Str → Str) (contextPath origPath : Str) (sums : List FileSum) : Str :=
  let absOrigPath := join [contextPath, origPath]
  let absOrigPath := if hasSuffix absOrigPath ['/'] then absOrigPath else absOrigPath ++ ['/']
  -- The path without the separator, for the directory itself.
  let absOrigPathNoSlash := absOrigPath.dropLast
  let subfiles := sums.filter fun f =>
    hasPrefix (join [contextPath, f.name]) absOrigPath && join [contextPath, f.name] != absOrigPathNoSlash
  "dir:".toList ++ sha256 ([','].intercalate ((subfiles.map FileSum.sum).insertionSort (· ≤ ·)))

/-- The position of a name in the context at `ds`. -/
abbrev placeOf (ds : List Str) (name : Str) : List Str := walk ds (comps name)

/-- The sums of the entries strictly below a directory. -/
def sumsBelow (ds : List Str) (d : Str) (sums : List FileSum) : List Str :=
  (sums.filter fun f => placeOf ds d <+: placeOf ds f.name ∧ placeOf ds d ≠ placeOf ds f.name).map FileSum.sum

/-! ## Paths -/

/-- The test of the loop, for a directory other than the root. -/
theorem picked_iff {P Q : List Str} (h0 : P ≠ []) (hP : AllProper P) (hQ : AllProper Q) :
    hasPrefix (absPath Q) (absPath P ++ ['/']) ↔ P <+: Q ∧ P ≠ Q := by
  rw [← below_iff_prefix h0 hP hQ]
  constructor
  · intro h
    have hpre := isPrefixOf_iff_prefix.mp h
    refine ⟨.inr hpre, ?_⟩
    rintro rfl
    exact absurd hpre.length_le (by simp)
  · rintro ⟨heq | hpre, hne⟩
    · exact absurd (absPath_injective hQ hP heq).symm hne
    · exact isPrefixOf_iff_prefix.mpr hpre

variable {ds : List Str} {d : Str}

/-- What is hashed for a directory of the context. -/
theorem dirHash_eq (sha256 : Str → Str) (h0 : ds ≠ []) (hds : AllProper ds)
    (hd : ds <+: placeOf ds d) (sums : List FileSum) : dirHash sha256 (absPath ds) d sums =
      "dir:".toList ++ sha256 ([','].intercalate ((sumsBelow ds d sums).insertionSort (· ≤ ·))) := by
  have hplace : ∀ name, AllProper (placeOf ds name) := fun name => walk_names hds fun _ => mem_comps
  have hne : placeOf ds d ≠ [] := fun h => h0 (prefix_nil.mp (h ▸ hd))
  have hfilter : ∀ f : FileSum, (hasPrefix (absPath (placeOf ds f.name)) (absPath (placeOf ds d) ++ ['/']) &&
      absPath (placeOf ds f.name) != absPath (placeOf ds d)) =
      decide (placeOf ds d <+: placeOf ds f.name ∧ placeOf ds d ≠ placeOf ds f.name) := by
    intro f
    rw [Bool.eq_iff_iff, Bool.and_eq_true, picked_iff hne (hplace d) (hplace f.name), decide_eq_true_iff, bne_iff_ne]
    exact and_iff_left_of_imp fun h heq => h.2 (absPath_injective (hplace f.name) (hplace d) heq).symm
  simp only [dirHash, join_absPath hds, hasSuffix_absPath (hplace d) hne, Bool.false_eq_true, if_false,
    dropLast_concat, hfilter, sumsBelow]

/-! ## Sums -/

theorem sumsBelow_hex {sums : List FileSum} :
    ∀ s ∈ sumsBelow ds d sums, s ≠ [] ∧ ',' ∉ s := by
  intro s hs
  obtain ⟨f, -, rfl⟩ := mem_map.mp hs
  exact ⟨f.hex.1, fun hc => absurd (f.hex.2 _ hc) (by decide)⟩

/-- Texts without a comma can be read back from what they are joined to. -/
theorem intercalate_comma_inj {l l' : List Str} (hl : ∀ s ∈ l, s ≠ [] ∧ ',' ∉ s) (hl' : ∀ s ∈ l', s ≠ [] ∧ ',' ∉ s)
    (h : [','].intercalate l = [','].intercalate l') : l = l' := by
  have hread : ∀ {l : List Str}, (∀ s ∈ l, s ≠ [] ∧ ',' ∉ s) →
      (([','].intercalate l).splitOn ',').filter (· ≠ []) = l := by
    intro l hl
    cases l with
    | nil => rfl
    | cons s l =>
      rw [splitOn_intercalate ',' (fun t ht => (hl t ht).2) (by simp)]
      exact filter_eq_self.mpr fun t ht => by simpa using (hl t ht).1
  rw [← hread hl, h, hread hl']

/-- **The key of a directory is the multiset of the sums strictly below it**, in whatever order the archives list
their entries, and wherever the two contexts lie. -/
theorem dirHash_eq_iff {sha256 : Str → Str} (hsha : Function.Injective sha256) {ds ds' : List Str}
    (h0 : ds ≠ [] ∧ ds' ≠ []) (hds : (∀ n ∈ ds, Proper n) ∧ ∀ n ∈ ds', Proper n) {d : Str}
    (hd : ds <+: placeOf ds d ∧ ds' <+: placeOf ds' d) (sums sums' : List FileSum) :
    dirHash sha256 (absPath ds) d sums = dirHash sha256 (absPath ds') d sums' ↔
      (sumsBelow ds d sums).Perm (sumsBelow ds' d sums') := by
  have hsort := fun l : List Str => perm_insertionSort (· ≤ ·) l
  rw [dirHash_eq sha256 h0.1 hds.1 hd.1, dirHash_eq sha256 h0.2 hds.2 hd.2, append_right_inj]
  constructor
  · intro h
    have hsorted := intercalate_comma_inj (fun s hs => sumsBelow_hex s ((hsort _).mem_iff.mp hs))
      (fun s hs => sumsBelow_hex s ((hsort _).mem_iff.mp hs)) (hsha h)
    exact ((hsort _).symm.trans (hsorted ▸ hsort _))
  · intro h
    have hsorted := ((hsort _).trans (h.trans (hsort _).symm)).eq_of_pairwise'
      (pairwise_insertionSort _ _) (pairwise_insertionSort _ _)
    rw [hsorted]

/-- A file of the given name with a sum of one digit. -/
def oneDigit (name : Str) : FileSum := ⟨name, ['7'], by simp; rfl⟩

/-- Two contexts whose entries differ in order, in the directory itself and in a neighbour. -/
theorem dirHash_eq_neighbour :
    dirHash id "/c".toList "a".toList [oneDigit "a/x".toList, oneDigit "a".toList, oneDigit "ab".toList] =
      dirHash id "/e".toList "a".toList [oneDigit "./a/y/..//x".toList] :=
  (@dirHash_eq_iff id Function.injective_id [['c']] [['e']] (by decide) (by decide) ['a'] (by decide) _ _).mpr
    (by decide)

end DockerEngine.Builder
