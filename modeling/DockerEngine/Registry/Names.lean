import DockerEngine.Images.Names
import DockerEngine.Lib.Outcome

/-!
# Names of repositories

`registry.NewRepositoryInfo` reads a repository name: the first part is a host if it looks like one, and
otherwise the name belongs to the official index. `NormalizeLocalName` is the name under which the tag store
keeps the repository. It is always an end of the name it is made from (`normalizeLocalName_end`).

The local form of an official name is what is left without the index and one `library/`. It is then read as
a name again, and may begin with another `library/` or with something that looks like a host. Then it is
not its own local form, or is also the local form of a repository on that host: `localName_iff` says for
which names this happens.

Whether an index is secure, and its mirrors, are left out, as no name depends on them. An index that is
configured has the name it is looked up by, and is official exactly when it is `docker.io`, like one that
is not configured.
-/

namespace DockerEngine.Registry

open Filepath Images List

/-- `registry.IndexName`. -/
def indexName : Str := "docker.io".toList

/-- The errors of reading a repository name. -/
inductive NameErr where
  /-- `ErrInvalidRepositoryName`. -/
  | invalidRepositoryName
  /-- "Invalid index name (" + val + "). Cannot begin or end with a hyphen." -/
  | hyphen (val : Str)
  /-- "Invalid repository name (" + name + "), cannot specify 64-byte hexadecimal strings". -/
  | imageID (remoteName : Str)
  /-- `ErrRepositoryNameEmpty`. -/
  | empty
  /-- `ErrRepositoryNameLong`. -/
  | long
  /-- `ErrRepositoryNameComponentInvalid`. -/
  | component
  deriving DecidableEq, Repr

/-! ## The names of the registry's interface -/

/-- A character of `[a-z0-9]`. -/
def isAlphaNumeric (c : Char) : Bool := c.isDigit || c.isLower

/-- A character of `[._-]`. -/
def isSeparator (c : Char) : Bool := c == '.' || c == '_' || c == '-'

/-- The automaton of `RepositoryNameComponentAnchoredRegexp`; the flag says that a component may end here. -/
def matchComponent : Bool → Str → Bool
  | mayEnd, [] => mayEnd
  | mayEnd, c :: cs =>
    if isAlphaNumeric c then matchComponent true cs else mayEnd && isSeparator c && matchComponent false cs

section

variable (s : Str) (reposName : Str) (name : Str)

/-- A component of a name: `[a-z0-9]+(?:[._-][a-z0-9]+)*`. -/
def validComponent : Bool := matchComponent false s

/-- `v2.RepositoryNameTotalLengthMax`. -/
def repositoryNameTotalLengthMax : Nat := 255

/-- `v2.ValidateRepositoryName`. -/
def validateRepositoryName : Except NameErr Unit :=
  if name = [] then .error .empty
  else if repositoryNameTotalLengthMax < name.length then .error .long
  else if (name.splitOn '/').all validComponent then .ok ()
  else .error .component

/-! ## Reading a name -/

/-- `ValidateIndexName`. -/
def validateIndexName (val : Str) : Except NameErr Str :=
  let val := if val = "index.".toList ++ indexName then indexName else val
  if val.head? = some '-' ∨ val.getLast? = some '-' then .error (.hyphen val) else .ok val

/-- `validateRemoteName`. -/
def validateRemoteName (remoteName : Str) : Except NameErr Unit :=
  if '/' ∉ remoteName ∧ validID remoteName = true then .error (.imageID remoteName)
  else validateRepositoryName remoteName

/-- `validateNoSchema`. -/
def validateNoSchema : Except NameErr Unit :=
  if "://".toList <:+: reposName then .error .invalidRepositoryName else .ok ()

/-- The part before the first slash. -/
def beforeSlash : Str := s.takeWhile fun c => c ≠ '/'

/-- The part behind the first slash. -/
def afterSlash : Str := (s.dropWhile fun c => c ≠ '/').drop 1

/-- The first part of a name is taken for a host. -/
def LooksLikeHost : Prop := '.' ∈ s ∨ ':' ∈ s ∨ s = "localhost".toList

instance (s : Str) : Decidable (LooksLikeHost s) := inferInstanceAs (Decidable (_ ∨ _ ∨ _))

/-- `splitReposName`: the index and the name there. -/
def splitReposName : Str × Str :=
  if '/' ∉ reposName ∨ ¬ LooksLikeHost (beforeSlash reposName) then (indexName, reposName)
  else (beforeSlash reposName, afterSlash reposName)

/-- `IndexInfo`. -/
structure IndexInfo where
  name : Str
  official : Bool
  deriving DecidableEq, Repr

/-- `NewIndexInfo`. -/
def newIndexInfo : Except NameErr IndexInfo := do
  let name ← validateIndexName name
  return ⟨name, name = indexName⟩

/-- `RepositoryInfo`. -/
structure RepositoryInfo where
  index : IndexInfo
  remoteName : Str
  localName : Str
  canonicalName : Str
  official : Bool
  deriving DecidableEq, Repr

/-- The name without one `library/` at its beginning. -/
def stripLibrary : Str := if "library/".toList <+: name then afterSlash name else name

/-- The name on the official index of what has the local name. -/
def officialRemoteName (localName : Str) : Str :=
  if '/' ∈ localName then localName else "library/".toList ++ localName

/-- A repository of the official index. -/
def officialInfo (index : IndexInfo) (remoteName : Str) : RepositoryInfo where
  index := index
  remoteName := officialRemoteName (stripLibrary remoteName)
  localName := stripLibrary remoteName
  canonicalName := "docker.io/".toList ++ officialRemoteName (stripLibrary remoteName)
  official := '/' ∉ stripLibrary remoteName

/-- A repository of another index. -/
def privateInfo (index : IndexInfo) (remoteName : Str) : RepositoryInfo where
  index := index
  remoteName := remoteName
  localName := index.name ++ '/' :: remoteName
  canonicalName := index.name ++ '/' :: remoteName
  official := false

/-- `NewRepositoryInfo`. -/
def newRepositoryInfo : Except NameErr RepositoryInfo := do
  validateNoSchema reposName
  validateRemoteName (splitReposName reposName).2
  let index ← newIndexInfo (splitReposName reposName).1
  return if index.official then officialInfo index (splitReposName reposName).2
    else privateInfo index (splitReposName reposName).2

/-- `NormalizeLocalName`. -/
def normalizeLocalName : Str :=
  match newRepositoryInfo name with
  | .error _ => name
  | .ok repoInfo => repoInfo.localName

end

/-! ## Valid names -/

section Valid

variable {s a b : Str}

variable {c : Char} {mayEnd : Bool}

theorem matchComponent_mem (h : matchComponent mayEnd s) : ∀ c ∈ s, isAlphaNumeric c ∨ isSeparator c := by
  induction s generalizing mayEnd with
  | nil => nofun
  | cons x xs ih =>
    rw [matchComponent] at h
    split at h
    next hx => exact forall_mem_cons.mpr ⟨.inl hx, ih h⟩
    · simp only [Bool.and_eq_true] at h
      exact forall_mem_cons.mpr ⟨.inr h.1.2, ih h.2⟩

theorem validComponent_head (h : validComponent s) : ∃ c cs, s = c :: cs ∧ isAlphaNumeric c := by
  cases s with
  | nil => cases h
  | cons c cs =>
    refine ⟨c, cs, rfl, ?_⟩
    rw [validComponent, matchComponent] at h
    split at h
    next hc => exact hc
    · simp at h

theorem matchComponent_getLast (h : matchComponent mayEnd s) (hc : s.getLast? = some c) : isAlphaNumeric c := by
  induction s generalizing mayEnd with
  | nil => cases hc
  | cons x xs ih =>
    rw [matchComponent] at h
    cases xs with
    | nil =>
      obtain rfl : x = c := by simpa using hc
      split at h
      next hx => exact hx
      · simp [matchComponent] at h
    | cons y ys =>
      rw [getLast?_cons_cons] at hc
      split at h
      · exact ih h hc
      · simp only [Bool.and_eq_true] at h
        exact ih h.2 hc

/-- `v2.ValidateRepositoryName` accepts the name. -/
structure ValidName (s : Str) : Prop where
  ne_nil : s ≠ []
  length : s.length ≤ repositoryNameTotalLengthMax
  components : ∀ c ∈ s.splitOn '/', validComponent c = true

theorem validateRepositoryName_iff : validateRepositoryName s = .ok () ↔ ValidName s := by
  unfold validateRepositoryName
  constructor
  · intro h
    split at h
    · cases h
    next hne =>
      split at h
      · cases h
      next hlen =>
        split at h
        next hall => exact ⟨hne, by omega, all_eq_true.mp hall⟩
        · cases h
  · intro h
    rw [if_neg h.ne_nil, if_neg (by have := h.length; omega), if_pos (all_eq_true.mpr h.components)]

theorem validateRemoteName_iff : validateRemoteName s = .ok () ↔ ValidName s ∧ validID s = false := by
  have hslash : validID s → '/' ∉ s := fun h => validID_not_mem h (by decide)
  unfold validateRemoteName
  cases hid : validID s with
  | true => simp [hslash hid]
  | false => simp [validateRepositoryName_iff]

/-- The characters of a valid name. -/
theorem ValidName.mem (h : ValidName s) (hc : c ∈ s) : c = '/' ∨ isAlphaNumeric c ∨ isSeparator c := by
  by_cases hslash : c = '/'
  · exact .inl hslash
  · right
    obtain ⟨part, hpart, hmem⟩ := exists_mem_splitOn hc hslash
    exact matchComponent_mem (h.components part hpart) c hmem

theorem ValidName.no_colon (h : ValidName s) : ':' ∉ s := by
  intro hc
  have hmem := h.mem hc
  revert hmem
  decide

/-- The first component and what is behind it. -/
theorem ValidName.split (ha : '/' ∉ a) (h : ValidName (a ++ '/' :: b)) : validComponent a ∧ ValidName b := by
  have hcomponents := h.components
  rw [Words.splitOn_cons ha, forall_mem_cons] at hcomponents
  have hb : b ≠ [] := by
    rintro rfl
    have hnil := hcomponents.2 [] (by simp)
    cases hnil
  refine ⟨hcomponents.1, hb, ?_, hcomponents.2⟩
  have hlen := h.length
  rw [length_append, length_cons] at hlen
  omega

end Valid

/-! ## The parts of a name -/

section Split

variable {s a b : Str}

theorem beforeSlash_append (ha : '/' ∉ a) : beforeSlash (a ++ '/' :: b) = a := (takeWhile_ne_append ha).1

theorem afterSlash_append (ha : '/' ∉ a) : afterSlash (a ++ '/' :: b) = b := by
  rw [afterSlash, (takeWhile_ne_append ha).2, drop_one, tail_cons]

theorem splitReposName_host (ha : '/' ∉ a) (hhost : LooksLikeHost a) : splitReposName (a ++ '/' :: b) = (a, b) := by
  rw [splitReposName, if_neg, beforeSlash_append ha, afterSlash_append ha]
  rw [beforeSlash_append ha]
  simp [hhost]

/-- A name is one of the official index as a whole, or a host and a name there. -/
theorem splitReposName_cases (s : Str) :
    (splitReposName s = (indexName, s) ∧ ∀ a b, '/' ∉ a → s = a ++ '/' :: b → ¬ LooksLikeHost a) ∨
      ∃ a b, '/' ∉ a ∧ LooksLikeHost a ∧ s = a ++ '/' :: b ∧ splitReposName s = (a, b) := by
  by_cases hslash : '/' ∈ s
  · obtain ⟨a, b, rfl, ha⟩ := eq_append_cons_of_mem hslash
    by_cases hhost : LooksLikeHost a
    · exact .inr ⟨a, b, ha, hhost, rfl, splitReposName_host ha hhost⟩
    left
    refine ⟨?_, fun a' b' ha' heq => ?_⟩
    · rw [splitReposName, if_pos (.inr (by rw [beforeSlash_append ha]; exact hhost))]
    · have hbefore := congrArg beforeSlash heq
      rw [beforeSlash_append ha, beforeSlash_append ha'] at hbefore
      exact hbefore ▸ hhost
  · refine .inl ⟨if_pos (.inl hslash), fun a b _ heq => absurd ?_ hslash⟩
    rw [heq]
    simp

theorem stripLibrary_cases (s : Str) :
    (¬ "library/".toList <+: s ∧ stripLibrary s = s) ∨ ∃ b, s = "library/".toList ++ b ∧ stripLibrary s = b := by
  by_cases h : "library/".toList <+: s
  · obtain ⟨b, rfl⟩ := h
    have hcut : "library/".toList ++ b = "library".toList ++ '/' :: b := rfl
    refine .inr ⟨b, rfl, ?_⟩
    rw [stripLibrary, if_pos (prefix_append _ _), hcut, afterSlash_append (by decide)]
  · exact .inl ⟨h, if_neg h⟩

theorem stripLibrary_end (s : Str) : stripLibrary s <:+ s := by
  rcases stripLibrary_cases s with ⟨-, h⟩ | ⟨b, rfl, h⟩
  · rw [h]
  · rw [h]
    exact suffix_append _ _

theorem stripLibrary_eq_self : stripLibrary s = s ↔ ¬ "library/".toList <+: s := by
  rcases stripLibrary_cases s with ⟨hnot, h⟩ | ⟨b, rfl, h⟩
  · exact ⟨fun _ => hnot, fun _ => h⟩
  · refine ⟨fun hself => ?_, fun hnot => absurd (prefix_append _ _) hnot⟩
    exact nomatch self_eq_append_left.mp (h.symm.trans hself)

theorem ValidName.stripLibrary (h : ValidName s) : ValidName (stripLibrary s) := by
  rcases stripLibrary_cases s with ⟨-, hs⟩ | ⟨b, rfl, hs⟩
  · rwa [hs]
  · rw [hs]
    exact (ValidName.split (a := "library".toList) (by decide) h).2

/-- What looks like a host does not begin with `library/`. -/
theorem not_library (ha : '/' ∉ a) (hhost : LooksLikeHost a) : ¬ "library/".toList <+: a ++ '/' :: b := by
  rintro ⟨b', h⟩
  have hcut : "library".toList ++ '/' :: b' = a ++ '/' :: b := h
  obtain ⟨rfl, -⟩ := Words.append_cons_inj (by decide) ha hcut
  revert hhost
  decide

end Split

/-! ## Which names are read, and how -/

section Read

variable {s a b : Str} {info : RepositoryInfo}

/-- The names of the official index. -/
def officialIndexes : List Str := [indexName, "index.".toList ++ indexName]

theorem official_host (h : a ∈ officialIndexes) : '/' ∉ a ∧ LooksLikeHost a := by
  revert a
  decide

/-- An index name does not begin or end with a hyphen. -/
def NoHyphen (a : Str) : Prop := a.head? ≠ some '-' ∧ a.getLast? ≠ some '-'

/-- Which indexes are accepted, and what is made of them. -/
theorem newIndexInfo_iff {i : IndexInfo} : newIndexInfo a = .ok i ↔
    a ∈ officialIndexes ∧ i = ⟨indexName, true⟩ ∨ a ∉ officialIndexes ∧ NoHyphen a ∧ i = ⟨a, false⟩ := by
  by_cases h : a ∈ officialIndexes
  · have hok : newIndexInfo a = .ok ⟨indexName, true⟩ := by
      revert a
      decide
    simp [h, hok, eq_comm]
  · obtain ⟨hname, hindex⟩ := not_or.mp (mem_pair.not.mp h)
    rw [newIndexInfo, validateIndexName, if_neg hindex]
    by_cases hhyphen : a.head? = some '-' ∨ a.getLast? = some '-'
    · rw [if_pos hhyphen]
      simp [h, NoHyphen, ← not_or, hhyphen]
    · rw [if_neg hhyphen]
      simp [h, hname, NoHyphen, not_or.mp hhyphen, eq_comm]

/-- Which names are accepted, and what is made of them. -/
theorem newRepositoryInfo_iff : newRepositoryInfo s = .ok info ↔
    ¬ "://".toList <:+: s ∧ (ValidName (splitReposName s).2 ∧ validID (splitReposName s).2 = false) ∧
      ((splitReposName s).1 ∈ officialIndexes ∧
          info = officialInfo ⟨indexName, true⟩ (splitReposName s).2 ∨
        (splitReposName s).1 ∉ officialIndexes ∧ NoHyphen (splitReposName s).1 ∧
          info = privateInfo ⟨(splitReposName s).1, false⟩ (splitReposName s).2) := by
  have hschema : validateNoSchema s = .ok () ↔ ¬ "://".toList <:+: s := by
    simp [validateNoSchema]
  rw [← validateRemoteName_iff, ← hschema, newRepositoryInfo]
  simp only [Outcome.bind_eq_ok, newIndexInfo_iff]
  constructor
  · rintro ⟨_, h, _, hremote, i, ⟨hofficial, rfl⟩ | ⟨hprivate, hhyphen, rfl⟩, hinfo⟩
    · exact ⟨h, hremote, .inl ⟨hofficial, (Except.ok.inj hinfo).symm⟩⟩
    · exact ⟨h, hremote, .inr ⟨hprivate, hhyphen, (Except.ok.inj hinfo).symm⟩⟩
  · rintro ⟨h, hremote, ⟨hofficial, rfl⟩ | ⟨hprivate, hhyphen, rfl⟩⟩
    · exact ⟨(), h, (), hremote, _, .inl ⟨hofficial, rfl⟩, rfl⟩
    · exact ⟨(), h, (), hremote, _, .inr ⟨hprivate, hhyphen, rfl⟩, rfl⟩

/-- The name of a repository elsewhere is the host and the name there. -/
theorem split_private (h : (splitReposName s).1 ∉ officialIndexes) :
    '/' ∉ (splitReposName s).1 ∧ LooksLikeHost (splitReposName s).1 ∧
      s = (splitReposName s).1 ++ '/' :: (splitReposName s).2 := by
  rcases splitReposName_cases s with ⟨hsplit, -⟩ | ⟨a, b, ha, hhost, hs, hsplit⟩
  · rw [hsplit] at h
    exact absurd mem_cons_self h
  · rw [hsplit]
    exact ⟨ha, hhost, hs⟩

theorem split_end (s : Str) : (splitReposName s).2 <:+ s := by
  rcases splitReposName_cases s with ⟨hsplit, -⟩ | ⟨a, b, -, -, rfl, hsplit⟩
  · rw [hsplit]
  · rw [hsplit]
    exact ⟨a ++ ['/'], by simp⟩

/-- The local form of a name is an end of it. -/
theorem normalizeLocalName_end (s : Str) : normalizeLocalName s <:+ s := by
  unfold normalizeLocalName
  split
  · exact suffix_refl s
  next info hok =>
    obtain ⟨-, -, ⟨-, rfl⟩ | ⟨hprivate, -, rfl⟩⟩ := newRepositoryInfo_iff.mp hok
    · exact (stripLibrary_end _).trans (split_end s)
    · have hs := (split_private hprivate).2.2
      show (splitReposName s).1 ++ '/' :: (splitReposName s).2 <:+ s
      rw [← hs]

/-- What is read with an id for its name is refused, and stays as it is. -/
theorem normalizeLocalName_refused (hid : validID (splitReposName s).2) : normalizeLocalName s = s := by
  unfold normalizeLocalName
  split
  · rfl
  next info hok =>
    have hnot := (newRepositoryInfo_iff.mp hok).2.1.2
    rw [hid] at hnot
    cases hnot

/-- An image id is no repository name. -/
theorem normalizeLocalName_id (h : validID s) : normalizeLocalName s = s := by
  apply normalizeLocalName_refused
  rw [splitReposName, if_pos (.inl (validID_not_mem h (by decide)))]
  exact h

end Read

/-! ## Local forms -/

section Local

variable {s n a b : Str} {info : RepositoryInfo}

theorem ValidName.no_schema (h : ValidName s) : ¬ "://".toList <:+: s :=
  fun hcontains => h.no_colon (hcontains.subset (by decide))

/-- A component neither begins nor ends with a hyphen. -/
theorem validComponent_noHyphen (h : validComponent a) : NoHyphen a := by
  have hhyphen : isAlphaNumeric '-' = false := by decide
  constructor
  · obtain ⟨c, cs, rfl, hc⟩ := validComponent_head h
    intro hhead
    obtain rfl : c = '-' := by simpa using hhead
    rw [hhyphen] at hc
    cases hc
  · intro hlast
    have hc := matchComponent_getLast h hlast
    rw [hhyphen] at hc
    cases hc

/-- A name of the official index is not read as one of them again. -/
def Settled (n : Str) : Prop :=
  ¬ "library/".toList <+: n ∧ ∀ a ∈ officialIndexes, ∀ b, n = a ++ '/' :: b → validID b = true

/-- A name is read as one on a host of its own. -/
def ReadAsPrivate (n : Str) : Prop := (splitReposName n).1 ∉ officialIndexes ∧ validID (splitReposName n).2 = false

section

variable (h : (splitReposName s).1 ∉ officialIndexes)
include h

/-- A name elsewhere is its own local form. -/
theorem privateInfo_localName :
    (privateInfo ⟨(splitReposName s).1, false⟩ (splitReposName s).2).localName = s :=
  (split_private h).2.2.symm

theorem normalizeLocalName_private : normalizeLocalName s = s := by
  unfold normalizeLocalName
  split
  · rfl
  next info hok =>
    obtain ⟨-, -, ⟨hofficial, -⟩ | ⟨-, -, rfl⟩⟩ := newRepositoryInfo_iff.mp hok
    · exact absurd hofficial h
    · exact privateInfo_localName h

end

/-- The local form of what the official index has. -/
theorem normalizeLocalName_official (hs : ¬ "://".toList <:+: s) (h : (splitReposName s).1 ∈ officialIndexes)
    (hvalid : ValidName (splitReposName s).2) (hid : validID (splitReposName s).2 = false) :
    normalizeLocalName s = stripLibrary (splitReposName s).2 := by
  rw [normalizeLocalName, newRepositoryInfo_iff.mpr ⟨hs, ⟨hvalid, hid⟩, .inl ⟨h, rfl⟩⟩]
  rfl

/-- A valid name is its own local form exactly when it is settled. -/
theorem normalizeLocalName_eq_self (hn : ValidName n) : normalizeLocalName n = n ↔ Settled n := by
  rcases splitReposName_cases n with ⟨hsplit, hnot⟩ | ⟨a, b, ha, hhost, rfl, hsplit⟩
  · -- the whole name is one of the official index, and no index stands before it
    have hindex : ∀ a ∈ officialIndexes, ∀ b, n = a ++ '/' :: b → validID b := by
      intro a ha b hcut
      exact absurd (official_host ha).2 (hnot a b (official_host ha).1 hcut)
    cases hid : validID n with
    | true =>
      have hslash : '/' ∉ n := validID_not_mem hid (by decide)
      refine ⟨fun _ => ⟨fun hlibrary => hslash (hlibrary.subset (by decide)), hindex⟩, fun _ => ?_⟩
      exact normalizeLocalName_refused (by rw [hsplit]; exact hid)
    | false =>
      have hnormal : normalizeLocalName n = stripLibrary n := by
        have h := @normalizeLocalName_official n hn.no_schema
        rw [hsplit] at h
        exact h mem_cons_self hn hid
      rw [hnormal, stripLibrary_eq_self]
      exact ⟨fun h => ⟨h, hindex⟩, fun h => h.1⟩
  · have hlibrary := @not_library a b ha hhost
    by_cases hofficial : a ∈ officialIndexes
    · cases hid : validID b with
      | true =>
        refine ⟨fun _ => ⟨hlibrary, fun a' ha' b' hcut => ?_⟩, fun _ => ?_⟩
        · obtain ⟨-, rfl⟩ := Words.append_cons_inj ha (official_host ha').1 hcut
          exact hid
        · exact normalizeLocalName_refused (by rw [hsplit]; exact hid)
      | false =>
        have hnormal : normalizeLocalName (a ++ '/' :: b) = stripLibrary b := by
          have h := @normalizeLocalName_official (a ++ '/' :: b) hn.no_schema
          rw [hsplit] at h
          exact h hofficial (ValidName.split ha hn).2 hid
        constructor
        · intro hself
          have hlen := (stripLibrary_end b).length_le
          rw [← hnormal, hself, length_append, length_cons] at hlen
          omega
        · intro hsettled
          have hyes := hsettled.2 a hofficial b rfl
          rw [hid] at hyes
          cases hyes
    · refine ⟨fun _ => ⟨hlibrary, fun a' ha' b' hcut => ?_⟩, fun _ => ?_⟩
      · obtain ⟨rfl, -⟩ := Words.append_cons_inj ha (official_host ha').1 hcut
        exact absurd ha' hofficial
      · exact normalizeLocalName_private (by rw [hsplit]; exact hofficial)

/-- The name is one of the official index. -/
def OnOfficialIndex (name : Str) : Prop := (splitReposName name).1 ∈ officialIndexes

/-- The name without the index and one `library/`. -/
def path (name : Str) : Str := stripLibrary (splitReposName name).2

/-- The canonical name on the official index is not the local one, where that has a slash. -/
theorem officialInfo_canonical_ne {i : IndexInfo} (h : '/' ∈ stripLibrary b) :
    (officialInfo i b).canonicalName ≠ stripLibrary b := by
  show "docker.io/".toList ++ officialRemoteName (stripLibrary b) ≠ _
  rw [officialRemoteName, if_pos h]
  exact fun heq => nomatch append_left_eq_self.mp heq

/-- A valid name on a host is the local form of a name of the official index. -/
theorem newRepositoryInfo_prepend (hn : ValidName n) (h : (splitReposName n).1 ∉ officialIndexes) :
    newRepositoryInfo ("docker.io/".toList ++ n) = .ok (officialInfo ⟨indexName, true⟩ n) ∧
      stripLibrary n = n ∧ '/' ∈ n := by
  obtain ⟨hslash, hhost, hcut⟩ := split_private h
  have hmem : '/' ∈ n := by
    rw [hcut]
    simp
  have hid : validID n = false := by
    by_contra hyes
    exact validID_not_mem (by simpa using hyes) (by decide) hmem
  have hsplit : splitReposName ("docker.io/".toList ++ n) = (indexName, n) :=
    splitReposName_host (official_host mem_cons_self).1 (official_host mem_cons_self).2
  have hschema : ¬ "://".toList <:+: "docker.io/".toList ++ n := by
    intro hcontains
    have hcolon : ':' ∈ "docker.io/".toList ++ n := hcontains.subset (by decide)
    rcases mem_append.mp hcolon with hcolon | hcolon
    · revert hcolon
      decide
    · exact hn.no_colon hcolon
  refine ⟨newRepositoryInfo_iff.mpr ?_, ?_, hmem⟩
  · rw [hsplit]
    exact ⟨hschema, ⟨hn, hid⟩, .inl ⟨mem_cons_self, rfl⟩⟩
  · rw [stripLibrary_eq_self, hcut]
    exact not_library hslash hhost

end Local

/-- An accepted name has a local form that is its own, exactly if what is left of an official name is
settled. The local form has one canonical name, exactly if what is left of an official name is not read as
a name on a host, and a name on a host is not a valid name as a whole. -/
theorem localName_iff (name : Str) (info : RepositoryInfo) (h : newRepositoryInfo name = .ok info) :
    (normalizeLocalName info.localName = info.localName ↔ (OnOfficialIndex name → Settled (path name))) ∧
      ((∀ name' info', newRepositoryInfo name' = .ok info' → info'.localName = info.localName →
          info'.canonicalName = info.canonicalName) ↔
        (OnOfficialIndex name → ¬ ReadAsPrivate (path name)) ∧
          (¬ OnOfficialIndex name → ¬ ValidName name)) := by
  obtain ⟨-, ⟨hvalid, -⟩, ⟨hofficial, rfl⟩ | ⟨hprivate, -, rfl⟩⟩ := newRepositoryInfo_iff.mp h
  · have hpath : ValidName (path name) := hvalid.stripLibrary
    constructor
    · exact (normalizeLocalName_eq_self hpath).trans ⟨fun hs _ => hs, fun hs => hs hofficial⟩
    constructor
    · intro hone
      refine ⟨fun _ hread => ?_, absurd hofficial⟩
      obtain ⟨hslash, -, hcut⟩ := split_private hread.1
      obtain ⟨hfirst, hrest⟩ := ValidName.split hslash (hcut ▸ hpath)
      have hmem : '/' ∈ path name := by
        rw [hcut]
        simp
      have hinfo := newRepositoryInfo_iff.mpr
        ⟨hpath.no_schema, ⟨hrest, hread.2⟩, .inr ⟨hread.1, validComponent_noHyphen hfirst, rfl⟩⟩
      have heq := hone _ _ hinfo hcut.symm
      exact officialInfo_canonical_ne hmem (heq.symm.trans hcut.symm)
    · rintro ⟨hread, -⟩ name' info' h' hlocal
      obtain ⟨-, ⟨-, hid'⟩, ⟨-, rfl⟩ | ⟨hprivate', -, rfl⟩⟩ := newRepositoryInfo_iff.mp h'
      · -- both are official, and the canonical name is made from the local one
        have hsame : stripLibrary (splitReposName name').2 = stripLibrary (splitReposName name).2 := hlocal
        show "docker.io/".toList ++ officialRemoteName _ = "docker.io/".toList ++ officialRemoteName _
        rw [hsame]
      · rw [privateInfo_localName hprivate'] at hlocal
        have hname : name' = path name := hlocal
        rw [hname] at hprivate' hid'
        exact absurd ⟨hprivate', hid'⟩ (hread hofficial)
  · rw [privateInfo_localName hprivate]
    have hcanonical : (privateInfo ⟨(splitReposName name).1, false⟩ (splitReposName name).2).canonicalName = name :=
      privateInfo_localName hprivate
    rw [hcanonical]
    constructor
    · exact ⟨fun _ hyes => absurd hyes hprivate, fun _ => normalizeLocalName_private hprivate⟩
    constructor
    · intro hone
      refine ⟨fun hyes => absurd hyes hprivate, fun _ hname => ?_⟩
      obtain ⟨hok, hstrip, hmem⟩ := newRepositoryInfo_prepend hname hprivate
      have heq := hone _ _ hok hstrip
      rw [← hstrip] at hmem
      exact officialInfo_canonical_ne hmem (heq.trans hstrip.symm)
    · rintro ⟨-, hnot⟩ name' info' h' hlocal
      obtain ⟨-, ⟨hvalid', -⟩, ⟨-, rfl⟩ | ⟨hprivate', -, rfl⟩⟩ := newRepositoryInfo_iff.mp h'
      · have hname : stripLibrary (splitReposName name').2 = name := hlocal
        exact absurd (hname ▸ hvalid'.stripLibrary) (hnot hprivate)
      · rw [privateInfo_localName hprivate'] at hlocal
        rw [← hlocal]
        exact privateInfo_localName hprivate'

theorem localName_ubuntu :
    normalizeLocalName "ubuntu".toList = "ubuntu".toList ∧
      (∀ name' info', newRepositoryInfo name' = .ok info' → info'.localName = "ubuntu".toList →
        info'.canonicalName = "docker.io/library/ubuntu".toList) := by
  obtain ⟨hself, hone⟩ := localName_iff "library/ubuntu".toList
    (officialInfo ⟨indexName, true⟩ "library/ubuntu".toList) (by decide)
  have hofficial : OnOfficialIndex "library/ubuntu".toList := by
    unfold OnOfficialIndex
    decide
  have hslash : '/' ∉ path "library/ubuntu".toList := by decide
  refine ⟨hself.mpr fun _ => ⟨by decide, fun a _ b hcut => absurd ?_ hslash⟩, hone.mpr ⟨fun _ => ?_, ?_⟩⟩
  · rw [hcut]
    simp
  · unfold ReadAsPrivate
    decide
  · exact absurd hofficial

/-- Two names with a local form that is not its own, or that another repository has too. -/
theorem localName_not_unique :
    ((newRepositoryInfo "library/library/x".toList).map RepositoryInfo.localName = .ok "library/x".toList ∧
      normalizeLocalName "library/x".toList = "x".toList) ∧
    (newRepositoryInfo "docker.io/a.b/c".toList).map RepositoryInfo.localName = .ok "a.b/c".toList ∧
    (newRepositoryInfo "a.b/c".toList).map RepositoryInfo.localName = .ok "a.b/c".toList ∧
    (newRepositoryInfo "docker.io/a.b/c".toList).map RepositoryInfo.canonicalName = .ok "docker.io/a.b/c".toList ∧
    (newRepositoryInfo "a.b/c".toList).map RepositoryInfo.canonicalName = .ok "a.b/c".toList := by
  decide +kernel

end DockerEngine.Registry
