import DockerEngine.Lib.Filepath

/-!
# Names of images

Image ids and the references of the tag store, as texts: `pkg/stringid`, `image.ValidateID`,
`parsers.ParseRepositoryTag`, `utils.ImageReference`, and the regular expressions of tags and digests. A
reference is written `repo:tag`, or `repo@digest` when what follows has a colon in it. Where neither part has
an `@` and a tag has no slash, reading gives back what was written (`parseRepositoryTag_imageReference`). An
image id has none of these characters, so it is read as a repository name without a tag
(`parseRepositoryTag_id`), which is why the lookups below try the tag store first.
-/

namespace DockerEngine.Images

open Filepath List

/-- `graph.DEFAULTTAG`. -/
def defaultTag : Str := "latest".toList

/-! ## Ids -/

/-- A character of `[a-f0-9]`. -/
def isHex (c : Char) : Bool := c.isDigit || ('a' ≤ c && c ≤ 'f')

/-- `image.ValidateID`: 64 hexadecimal characters. -/
def validID (id : Str) : Bool := id.length == 64 && id.all isHex

/-- `stringid.TruncateID`. -/
def truncateID (id : Str) : Str := id.take 12

/-- `stringid.IsShortID`. -/
def isShortID (id : Str) : Bool := id.length == 12 && id.all fun c => c.isDigit || c.isLower

variable {id x : Str} {c a : Char}

theorem validID_length (h : validID id) : id.length = 64 := by
  simp only [validID, Bool.and_eq_true, beq_iff_eq] at h
  exact h.1

theorem validID_ne_nil (h : validID id) : id ≠ [] := by
  intro h0
  have hlen := validID_length h
  rw [h0] at hlen
  cases hlen

theorem validID_not_mem (h : validID id) (hc : isHex c = false) : c ∉ id := by
  simp only [validID, Bool.and_eq_true, all_eq_true] at h
  intro hmem
  rw [h.2 c hmem] at hc
  cases hc

theorem isAlphanum_of_isHex (h : isHex c) : c.isAlphanum := by
  simp only [isHex, Bool.or_eq_true, Bool.and_eq_true, decide_eq_true_eq] at h
  rcases h with h | ⟨hlo, hhi⟩
  · simp [Char.isAlphanum, h]
  have hlower : c.isLower := by
    have hz : c ≤ 'z' := Char.le_trans hhi (by decide)
    simpa [Char.isLower, Char.le_def, UInt32.le_iff_toNat_le] using ⟨hlo, hz⟩
  simp [Char.isAlphanum, Char.isAlpha, hlower]

/-- Ids are equally long, so one begins another only if they are the same. -/
theorem validID_begins {a b : Str} (ha : validID a) (hb : validID b) (h : a <+: b) : a = b := by
  apply h.eq_of_length
  rw [validID_length ha, validID_length hb]

/-! ## References -/

/-- `utils.DigestReference`. -/
def digestReference (ref : Str) : Bool := ref.contains ':'

/-- `utils.ImageReference`. -/
def imageReference (repo ref : Str) : Str :=
  if digestReference ref then repo ++ '@' :: ref else repo ++ ':' :: ref

/-- `parsers.ParseRepositoryTag`: the repository, and the tag or digest behind it. A digest stands
behind the first `@`, a tag behind the last colon unless that is the port of a host. -/
def parseRepositoryTag (repos : Str) : Str × Str :=
  if repos.contains '@' then
    (repos.takeWhile (fun c => c ≠ '@'), ((repos.dropWhile fun c => c ≠ '@').drop 1).takeWhile fun c => c ≠ '@')
  else if repos.contains ':' then
    let tag := (repos.reverse.takeWhile fun c => c ≠ ':').reverse
    if tag.contains '/' then (repos, [])
    else (((repos.reverse.dropWhile fun c => c ≠ ':').drop 1).reverse, tag)
  else (repos, [])

/-- A repository name and a tag or digest that can be told apart again once they are written together. -/
structure Readable (repo ref : Str) : Prop where
  repo_at : '@' ∉ repo
  ref_at : '@' ∉ ref
  ref_slash : ':' ∉ ref → '/' ∉ ref

theorem takeWhile_ne_append {y : Str} (h : a ∉ x) :
    (x ++ a :: y).takeWhile (fun c => c ≠ a) = x ∧ (x ++ a :: y).dropWhile (fun c => c ≠ a) = a :: y := by
  constructor
  · rw [takeWhile_append_of_pos (Words.all_ne h), takeWhile_cons_of_neg (by simp), append_nil]
  · rw [dropWhile_append_of_pos (Words.all_ne h), dropWhile_cons_of_neg (by simp)]

/-- Reading a reference gives back its parts. -/
theorem parseRepositoryTag_imageReference {repo ref : Str} (h : Readable repo ref) :
    parseRepositoryTag (imageReference repo ref) = (repo, ref) := by
  unfold imageReference digestReference
  by_cases hcolon : ':' ∈ ref
  · rw [if_pos (by simpa using hcolon)]
    obtain ⟨hfront, hback⟩ := takeWhile_ne_append (y := ref) h.repo_at
    rw [parseRepositoryTag, if_pos (by simp), hfront, hback, drop_one, tail_cons,
      takeWhile_eq_self_iff.mpr (Words.all_ne h.ref_at)]
  · rw [if_neg (by simpa using hcolon)]
    have hrev : (repo ++ ':' :: ref).reverse = ref.reverse ++ ':' :: repo.reverse := by simp
    have hrefcolon : ':' ∉ ref.reverse := by simpa using hcolon
    obtain ⟨hfront, hback⟩ := takeWhile_ne_append (y := repo.reverse) hrefcolon
    have hat : '@' ∉ repo ++ ':' :: ref := by simp [h.repo_at, h.ref_at]
    rw [parseRepositoryTag, if_neg (by simpa using hat), if_pos (by simp), hrev, hfront, hback]
    simp [h.ref_slash hcolon]

/-- An image id is read as a repository name without a tag. -/
theorem parseRepositoryTag_id (h : validID id) : parseRepositoryTag id = (id, []) := by
  have hat : '@' ∉ id := validID_not_mem h (by decide)
  have hcolon : ':' ∉ id := validID_not_mem h (by decide)
  rw [parseRepositoryTag, if_neg (by simpa using hat), if_neg (by simpa using hcolon)]

example : parseRepositoryTag "localhost:5000/foo/bar".toList = ("localhost:5000/foo/bar".toList, []) := by
  decide

/-! ## Tags and digests -/

/-- A character of `\w`. -/
def isWord (c : Char) : Bool := c.isAlphanum || c == '_'

/-- `v2.TagNameAnchoredRegexp`: `[\w][\w.-]` and so on, up to 128 characters. -/
def validTagName : Str → Bool
  | [] => false
  | c :: cs => isWord c && cs.length ≤ 127 && cs.all fun c => isWord c || c == '.' || c == '-'

/-- A character of `[a-zA-Z0-9-_+.]`. -/
def isAlgorithmChar (c : Char) : Bool := isWord c || c == '-' || c == '+' || c == '.'

/-- A character of `[a-fA-F0-9]`. -/
def isDigestChar (c : Char) : Bool := isHex c || ('A' ≤ c && c ≤ 'F')

/-- `DigestRegexpAnchored`: an algorithm, a colon and hexadecimal digits. -/
def validDigest (digest : Str) : Bool :=
  match digest.splitOn ':' with
  | [algorithm, hex] => algorithm ≠ [] && hex ≠ [] && algorithm.all isAlgorithmChar && hex.all isDigestChar
  | _ => false

/-- What may stand behind a repository. -/
def validRef (ref : Str) : Bool := validTagName ref || validDigest ref

end DockerEngine.Images
