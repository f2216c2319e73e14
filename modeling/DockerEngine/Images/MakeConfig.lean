import DockerEngine.Lib.Filepath
import DockerEngine.Lib.GoMap
import DockerEngine.Lib.Outcome
import DockerEngine.Lib.Sorting
import DockerEngine.Lib.Utf8

/-!
# The configuration of a pulled image

`MakeImageConfig` turns the `v1Compatibility` object of a manifest into the configuration whose hash is the id of the
image. The object comes from the registry and may have any members. Of images that were made before 1.8.3 it is first
read into an `Image` and written again; then the digests of the layer and of the parent are put in, and the members
that are not content are taken out.

The digest of the layer is always put in, that of the parent only if there is one. A `parent_id` that the object has
already then stays (`carriesParent`), so that an image without a parent can have the configuration of one with a
parent. Digests are not checked to be UTF-8, and `json.Marshal` replaces the bytes of a string that are not. Apart
from these two the configuration commits to both digests (`makeImageConfig_commits_iff`).

`encoding/json` is given by what it reads and prints (`Json`), over any type of texts and of the values that are
neither `null` nor strings. The fields of `Image` that play no part here are read and written together (`rest`).
-/

namespace DockerEngine.Images.MakeConfig

open Filepath Outcome Utf8 List GoMap Bytes Prod

/-! ## JSON -/

/-- A JSON value: `null`, a string or another one. -/
inductive Value (R : Type) where
  | null
  | string (s : Str)
  | other (r : R)
  deriving DecidableEq, Repr

/-- The members of an object, in order. -/
abbrev Members (R : Type) : Type := List (Str × Value R)

/-- The members of `Image` that are read and written together. -/
def restNames : List Str :=
  ["comment".toList, "created".toList, "container".toList, "container_config".toList, "docker_version".toList,
    "author".toList, "config".toList, "architecture".toList, "os".toList]

/-- `encoding/json`, for texts of type `B`: an object that was printed is read back. `integer` reads an `int64` and
`number` prints one. `rest` reads the other fields of an `Image` and prints them again. -/
structure Json (B R : Type) where
  parse : B → Option (Members R)
  print : Members R → B
  parse_print : ∀ ms, parse (print ms) = some ms
  integer : R → Option Int
  number : Int → R
  rest : Members R → Option (Members R)
  rest_names : ∀ ms rs, rest ms = some rs → ∀ m ∈ rs, m.1 ∈ restNames

variable {B R : Type}

section

variable (ms : Members R) (s : Bytes)

/-- `json.Unmarshal` into a map. The last of two members of one name counts. -/
def toMap : GoMap Str (Value R) := ms.foldl (fun c m => c.set m.1 m.2) .empty

/-- `rawJSON` of a string. Bytes that are not UTF-8 are replaced. -/
def rawJSON : Value R := .string (repair s)

/-- `json.Marshal` of a map: the members in the order of their names. -/
def sortMembers : Members R := Sorting.insertionSort (fun a b => decide (a.1 < b.1)) ms

/-! ## `Image` -/

/-- A character without its case. Two characters that are not ASCII have the case of ASCII letters. -/
def foldChar (c : Char) : Char := if c = '\u212a' then 'k' else if c = '\u017f' then 's' else c.toLower

/-- A member is taken for a field if their names are equal but for case. -/
def names (field key : Str) : Bool := key.map foldChar == field.map foldChar

/-- A string field. -/
def stringField (field : String) (ms : Members R) : Option Str :=
  ms.foldlM (fun s m =>
    if names field.toList m.1 then
      match m.2 with
      | .string t => some t
      | .null => some s
      | _ => none
    else some s) []

/-- The field `Size`. -/
def sizeField (integer : R → Option Int) (ms : Members R) : Option Int :=
  ms.foldlM (fun n m =>
    if names "Size".toList m.1 then
      match m.2 with
      | .other r => integer r
      | .null => some n
      | _ => none
    else some n) 0

/-- `Image`. -/
structure Image (R : Type) where
  id : Str
  parent : Str
  dockerVersion : Str
  size : Int
  parentID : Str
  layerID : Str
  rest : Members R

/-- `NewImgJSON`. -/
def newImgJSON (j : Json B R) (src : B) : Option (Image R) := do
  let ms ← j.parse src
  let id ← stringField "id" ms
  let parent ← stringField "parent" ms
  let dockerVersion ← stringField "docker_version" ms
  let size ← sizeField j.integer ms
  let parentID ← stringField "parent_id" ms
  let layerID ← stringField "layer_id" ms
  let rest ← j.rest ms
  return ⟨id, parent, dockerVersion, size, parentID, layerID, rest⟩

/-- A field that is left out if it is empty. -/
def omitempty (name : String) (s : Str) : Members R := if s = [] then [] else [(name.toList, .string s)]

/-- The members of an `Image`. -/
def Image.members (number : Int → R) (img : Image R) : Members R :=
  omitempty "id" img.id ++ omitempty "parent" img.parent ++ img.rest ++
    (if img.size = 0 then [] else [("Size".toList, .other (number img.size))]) ++
    omitempty "parent_id" img.parentID ++ omitempty "layer_id" img.layerID

/-! ## Versions -/

/-- A number of digits, at most `bound`. What has other characters is no number. -/
def magnitude (s : Str) (bound : Nat) : Nat :=
  if s ≠ [] ∧ s.all (fun c => '0' ≤ c && c ≤ '9') = true then
    min (s.foldl (fun n c => 10 * n + (c.toNat - 48)) 0) bound
  else 0

/-- `strconv.Atoi` without its error: 0 for a text that is no number, the nearest `int` for one that is too large. -/
def atoi : Str → Int
  | '-' :: s => -(magnitude s (2 ^ 63))
  | '+' :: s => magnitude s (2 ^ 63 - 1)
  | s => magnitude s (2 ^ 63 - 1)

/-- `compareTo`. -/
def compareTo (v other : Str) : Int :=
  let currTab := v.splitOn '.'
  let otherTab := other.splitOn '.'
  ((range (max currTab.length otherTab.length)).findSome? fun i =>
    let currInt := (currTab[i]?.map atoi).getD 0
    let otherInt := (otherTab[i]?.map atoi).getD 0
    if otherInt < currInt then some 1
    else if currInt < otherInt then some (-1)
    else none).getD 0

/-- `LessThan`. -/
def lessThan (v other : Str) : Bool := compareTo v other == -1

/-- `noFallbackMinVersion`. -/
def noFallbackMinVersion : Str := "1.8.3".toList

/-! ## Digests -/

/-- The errors of `Validate`. -/
inductive DigestErr where
  | invalidFormat
  | unsupported
  deriving DecidableEq, Repr

def isAlnum (b : UInt8) : Bool := isDigit b || isAsciiLetter b

def isHex (b : UInt8) : Bool := isDigit b || (97 ≤ b && b ≤ 102) || (65 ≤ b && b ≤ 70)

def isLowerAlnum (b : UInt8) : Bool := isDigit b || (97 ≤ b && b ≤ 122)

/-- A text begins with `\+([a-zA-Z0-9]+):([A-Fa-f0-9]+)`. -/
def matchSum : Bool :=
  match s with
  | 43 :: t =>
    let alg := t.takeWhile isAlnum
    match t.drop alg.length with
    | 58 :: u => alg ≠ [] && (u.head?.map isHex).getD false
    | _ => false
  | _ => false

/-- A text begins with `(tarsum)(.([a-z0-9]+))?\+([a-zA-Z0-9]+):([A-Fa-f0-9]+)`. -/
def matchTarSum : Bool :=
  (text "tarsum").isPrefixOf s &&
    let t := s.drop 6
    matchSum t ||
      (t.head? ≠ none && t.head? ≠ some 10 &&
        let u := t.drop (decodeRune t).2
        let version := u.takeWhile isLowerAlnum
        version ≠ [] && matchSum (u.drop version.length))

/-- `ParseTarSum` succeeds: its expression matches somewhere. -/
def parseTarSum : Bool := s.tails.any matchTarSum

/-- `DigestRegexpAnchored`. -/
def matchDigest : Bool :=
  match cut 58 s with
  | some (alg, hex) =>
    alg ≠ [] && alg.all (fun b => isAlnum b || b == 45 || b == 95 || b == 43 || b == 46) && hex ≠ [] && hex.all isHex
  | none => false

/-- `Validate`. -/
def validate (d : Bytes) : Except DigestErr Unit :=
  if parseTarSum d then .ok ()
  else if !matchDigest d then .error .invalidFormat
  else
    match cut 58 d with
    | some (alg, hex) =>
      if hex = [] then .error .invalidFormat
      else if [text "sha256", text "sha384", text "sha512"].contains alg then .ok ()
      else .error .unsupported
    | none => .error .invalidFormat

/-! ## `MakeImageConfig` -/

/-- The errors of `MakeImageConfig`. -/
inductive ConfigErr where
  | json
  | layerID (e : DigestErr)
  | parentID (e : DigestErr)
  deriving DecidableEq, Repr

/-- The object from which the configuration is made. -/
def baseObject (j : Json B R) (v1Compatibility : B) : Option (Members R) := do
  let img ← newImgJSON j v1Compatibility
  let useFallback := lessThan img.dockerVersion noFallbackMinVersion
  j.parse (if useFallback then j.print (img.members j.number) else v1Compatibility)

/-- The configuration with its digests, without the members that are not content. -/
def config (layerID parentID : Bytes) : GoMap Str (Value R) :=
  let c := (toMap ms).set "layer_id".toList (rawJSON layerID)
  let c := if parentID ≠ [] then c.set "parent_id".toList (rawJSON parentID) else c
  ((c.delete "id".toList).delete "parent".toList).delete "Size".toList

end

/-- `MakeImageConfig`. -/
def makeImageConfig (j : Json B R) (v1Compatibility : B) (layerID parentID : Bytes) : Except ConfigErr B :=
  match baseObject j v1Compatibility with
  | none => .error .json
  | some ms =>
    match validate layerID with
    | .error e => .error (.layerID e)
    | .ok () =>
      match if parentID ≠ [] then validate parentID else .ok () with
      | .error e => .error (.parentID e)
      | .ok () => .ok (j.print (sortMembers (config ms layerID parentID).entries))

/-! ## Maps and members -/

variable {ms : Members R} {k : Str}

variable {c : GoMap Str (Value R)} {s : Bytes}

theorem get_foldl_ne_none :
    (ms.foldl (fun c m => c.set m.1 m.2) c).get k ≠ none ↔ c.get k ≠ none ∨ k ∈ ms.map fst := by
  induction ms generalizing c with
  | nil => simp
  | cons m ms ih =>
    rw [foldl_cons, ih, map_cons, mem_cons]
    by_cases hk : k = m.1
    · simp [hk]
    · simp [hk]

theorem get_toMap_ne_none : (toMap ms).get k ≠ none ↔ k ∈ ms.map fst := by
  rw [toMap, get_foldl_ne_none]
  exact ⟨fun h => h.resolve_left fun h => h rfl, .inr⟩

theorem get_foldl (h : (ms.map fst).Nodup) (k : Str) :
    (ms.foldl (fun c m => c.set m.1 m.2) c).get k = (ms.lookup k).or (c.get k) := by
  induction ms generalizing c with
  | nil => rfl
  | cons m ms ih =>
    obtain ⟨key, v⟩ := m
    rw [map_cons, nodup_cons] at h
    rw [foldl_cons, ih h.2, lookup_cons]
    by_cases hk : k = key
    · subst hk
      have hnone : ms.lookup k = none := by
        rw [lookup_eq_none_iff]
        intro m hm
        have hne : k ≠ m.1 := fun heq => h.1 (mem_map.mpr ⟨m, hm, heq.symm⟩)
        simpa using hne
      rw [hnone, beq_self_eq_true, get_set_self]
      rfl
    · have hbeq : (k == key) = false := by simpa using hk
      rw [get_set_ne _ hk, hbeq]

/-- What is printed of a map is read back as that map. -/
theorem get_toMap_sortMembers (c : GoMap Str (Value R)) (k : Str) :
    (toMap (sortMembers c.entries)).get k = c.get k := by
  have hperm : (sortMembers c.entries).Perm c.entries := Sorting.insertionSort_perm _ _
  have hnodup : ((sortMembers c.entries).map fst).Nodup := (hperm.map fst).nodup_iff.mpr c.nodup
  let sorted : GoMap Str (Value R) := ⟨sortMembers c.entries, hnodup⟩
  have hempty : (empty : GoMap Str (Value R)).get k = none := rfl
  rw [toMap, get_foldl hnodup, hempty, Option.or_none]
  apply Option.ext
  intro v
  calc sorted.get k = some v ↔ (k, v) ∈ sorted.entries := mem_iff_get.symm
    _ ↔ (k, v) ∈ c.entries := hperm.mem_iff
    _ ↔ c.get k = some v := mem_iff_get

/-! ## What the configuration commits to -/

/-- The text that a member has. -/
def Has (v : Option (Value R)) (s : Bytes) : Prop := ∃ t, v = some (.string t) ∧ encodeText t = s

/-- The object has the digest of the layer, and that of the parent exactly if there is a parent; and it has none of
the members that are not content. -/
def Commits (j : Json B R) (layerID parentID : Bytes) (out : B) : Prop :=
  ∃ ms, j.parse out = some ms ∧ Has ((toMap ms).get "layer_id".toList) layerID ∧
    (if parentID = [] then (toMap ms).get "parent_id".toList = none
      else Has ((toMap ms).get "parent_id".toList) parentID) ∧
    (toMap ms).get "id".toList = none ∧ (toMap ms).get "parent".toList = none ∧ (toMap ms).get "Size".toList = none

/-- The text is UTF-8. -/
def isUtf8 (s : Bytes) : Bool := (decodeText s).isSome

/-- The object has a `parent_id` that stays if no other one is put in. On the way through `Image` this is one that is
a string, not empty, under a name in any case. -/
def carriesParent (j : Json B R) (v1Compatibility : B) : Bool :=
  match newImgJSON j v1Compatibility, j.parse v1Compatibility with
  | some img, some ms =>
    if lessThan img.dockerVersion noFallbackMinVersion then img.parentID != []
    else (ms.map fst).contains "parent_id".toList
  | _, _ => false

/-- The digests that can be committed to. -/
def Committable (j : Json B R) (v1Compatibility : B) (layerID parentID : Bytes) : Prop :=
  isUtf8 layerID = true ∧ isUtf8 parentID = true ∧ (parentID ≠ [] ∨ carriesParent j v1Compatibility = false)

theorem has_rawJSON : Has (some (rawJSON s : Value R)) s ↔ isUtf8 s := by
  rw [isUtf8, Option.isSome_iff_ne_none, ← encodeText_repair_iff]
  constructor
  · rintro ⟨t, ht, hs⟩
    cases ht
    exact hs
  · exact fun h => ⟨_, rfl, h⟩

theorem Has.inj {v : Option (Value R)} {s' : Bytes} (h : Has v s) (h' : Has v s') : s = s' := by
  obtain ⟨t, rfl, rfl⟩ := h
  obtain ⟨t', ht, rfl⟩ := h'
  cases ht
  rfl

theorem mem_omitempty {name : String} {s : Str} :
    k ∈ (omitempty name s : Members R).map fst ↔ k = name.toList ∧ s ≠ [] := by
  rw [omitempty]
  split
  next h => simp [h]
  next h => simp [h]

/-- An `Image` has a `parent_id` if that field is not empty. -/
theorem mem_members {number : Int → R} {img : Image R} (h : ∀ m ∈ img.rest, m.1 ∈ restNames) :
    "parent_id".toList ∈ (img.members number).map fst ↔ img.parentID ≠ [] := by
  have hrest : "parent_id".toList ∉ img.rest.map fst := by
    rw [mem_map]
    rintro ⟨m, hm, hname⟩
    exact absurd (hname ▸ h m hm) (by decide)
  have hsize : "parent_id".toList ∉
      (if img.size = 0 then [] else [("Size".toList, Value.other (number img.size))]).map fst := by
    split
    · simp
    · simp only [map_cons, map_nil, mem_singleton]
      decide
  have hid : ¬ "parent_id".toList = "id".toList := by decide
  have hparent : ¬ "parent_id".toList = "parent".toList := by decide
  have hlayer : ¬ "parent_id".toList = "layer_id".toList := by decide
  rw [Image.members]
  simp only [map_append, mem_append, mem_omitempty, hrest, hsize, hid, hparent, hlayer, false_and, false_or,
    or_false, true_and]

variable {j : Json B R}

/-- The parts of `NewImgJSON`. -/
theorem rest_newImgJSON {src : B} {img : Image R} (h : newImgJSON j src = some img) :
    ∃ ms, j.parse src = some ms ∧ j.rest ms = some img.rest := by
  simp only [newImgJSON, Option.bind_eq_bind, Option.bind_eq_some_iff] at h
  obtain ⟨ms, hms, _, -, _, -, _, -, _, -, _, -, _, -, rest, hrest, hpure⟩ := h
  cases hpure
  exact ⟨ms, hms, hrest⟩

variable {v1 : B}

/-- Whether a `parent_id` stays. -/
theorem carriesParent_iff (h : baseObject j v1 = some ms) :
    (toMap ms).get "parent_id".toList ≠ none ↔ carriesParent j v1 := by
  obtain ⟨img, himg, hparse⟩ := Option.bind_eq_some_iff.mp h
  obtain ⟨ms₀, hms₀, hrest⟩ := rest_newImgJSON himg
  simp only [get_toMap_ne_none, carriesParent, himg, hms₀] at hparse ⊢
  split at hparse
  next hless =>
    rw [j.parse_print] at hparse
    cases hparse
    rw [if_pos hless, mem_members (j.rest_names ms₀ img.rest hrest), bne_iff_ne]
  next hless =>
    cases hms₀.symm.trans hparse
    rw [if_neg hless, contains_iff_mem]

variable {layerID parentID : Bytes}

theorem makeImageConfig_ok {out : B} (h : makeImageConfig j v1 layerID parentID = .ok out) :
    ∃ ms, baseObject j v1 = some ms ∧ out = j.print (sortMembers (config ms layerID parentID).entries) := by
  rw [makeImageConfig] at h
  split at h
  next => cases h
  next ms hms =>
    split at h
    next => cases h
    next =>
      split at h
      next => cases h
      next =>
        cases h
        exact ⟨ms, hms, rfl⟩

theorem makeImageConfig_eq (hms : baseObject j v1 = some ms) (hlayer : validate layerID = .ok ())
    (hparent : parentID = [] ∨ validate parentID = .ok ()) :
    makeImageConfig j v1 layerID parentID = .ok (j.print (sortMembers (config ms layerID parentID).entries)) := by
  have hvalid : (if parentID ≠ [] then validate parentID else .ok ()) = .ok () := by
    split
    next h => exact hparent.resolve_left h
    next => rfl
  simp only [makeImageConfig, hms, hlayer, hvalid]

section

variable (ms : Members R) (layerID : Bytes) (parentID : Bytes)

theorem config_layer : (config ms layerID parentID).get "layer_id".toList = some (rawJSON layerID) := by
  rw [config, get_delete_ne _ (by decide), get_delete_ne _ (by decide), get_delete_ne _ (by decide)]
  split
  · rw [get_set_ne _ (by decide), get_set_self]
  · rw [get_set_self]

theorem config_parent :
    (config ms layerID parentID).get "parent_id".toList =
      if parentID = [] then (toMap ms).get "parent_id".toList else some (rawJSON parentID) := by
  rw [config, get_delete_ne _ (by decide), get_delete_ne _ (by decide), get_delete_ne _ (by decide)]
  by_cases h : parentID = []
  · rw [if_neg (not_not.mpr h), if_pos h, get_set_ne _ (by decide)]
  · rw [if_pos h, if_neg h, get_set_self]

theorem config_cleared :
    (config ms layerID parentID).get "id".toList = none ∧ (config ms layerID parentID).get "parent".toList = none ∧
      (config ms layerID parentID).get "Size".toList = none := by
  refine ⟨?_, ?_, get_delete_self _ _⟩
  · rw [config, get_delete_ne _ (by decide), get_delete_ne _ (by decide), get_delete_self]
  · rw [config, get_delete_ne _ (by decide), get_delete_self]

end

/-- What the printed configuration says, in terms of the object that it was made from. -/
theorem commits_iff : Commits j layerID parentID (j.print (sortMembers (config ms layerID parentID).entries)) ↔
      isUtf8 layerID ∧ isUtf8 parentID ∧
        (parentID ≠ [] ∨ (toMap ms).get "parent_id".toList = none) := by
  have hempty : isUtf8 [] := by
    rw [isUtf8, decodeText, runes]
    rfl
  obtain ⟨hid, hparent, hsize⟩ := config_cleared ms layerID parentID
  rw [Commits]
  simp only [j.parse_print, Option.some.injEq, exists_eq_left', get_toMap_sortMembers, config_layer, config_parent,
    has_rawJSON, hid, hparent, hsize, and_true]
  by_cases h : parentID = []
  · simp only [h, if_true, hempty, true_and, ne_eq, not_true_eq_false, false_or]
  · simp only [h, if_false, has_rawJSON, ne_eq, not_false_eq_true, true_or, and_true]

theorem Commits.inj {layerID' parentID' : Bytes} {out : B}
    (h : Commits j layerID parentID out) (h' : Commits j layerID' parentID' out) :
    layerID = layerID' ∧ parentID = parentID' := by
  obtain ⟨ms, hms, hlayer, hparent, -⟩ := h
  obtain ⟨ms', hms', hlayer', hparent', -⟩ := h'
  cases hms.symm.trans hms'
  refine ⟨hlayer.inj hlayer', ?_⟩
  split at hparent
  next hnil =>
    split at hparent'
    next hnil' => rw [hnil, hnil']
    next =>
      obtain ⟨t, ht, -⟩ := hparent'
      cases hparent.symm.trans ht
  next =>
    split at hparent'
    next =>
      obtain ⟨t, ht, -⟩ := hparent
      cases hparent'.symm.trans ht
    next => exact hparent.inj hparent'

/-- **A configuration commits to its layer and its parent** exactly if both digests are UTF-8 and there is a parent or
the object carries none; and then its bytes determine both digests. -/
theorem makeImageConfig_commits_iff (j : Json B R) {v1 : B} {layerID parentID : Bytes} {out : B}
    (h : makeImageConfig j v1 layerID parentID = .ok out) :
    (Commits j layerID parentID out ↔ Committable j v1 layerID parentID) ∧
      ∀ v1' layerID' parentID', makeImageConfig j v1' layerID' parentID' = .ok out →
        Committable j v1 layerID parentID → Committable j v1' layerID' parentID' →
        layerID = layerID' ∧ parentID = parentID' := by
  have hcommits : ∀ {v1 : B} {layerID parentID : Bytes}, makeImageConfig j v1 layerID parentID = .ok out →
      (Commits j layerID parentID out ↔ Committable j v1 layerID parentID) := by
    intro v1 layerID parentID h
    obtain ⟨ms, hms, rfl⟩ := makeImageConfig_ok h
    rw [commits_iff, Committable, ← Bool.not_eq_true, ← carriesParent_iff hms, ne_eq, not_not]
  exact ⟨hcommits h, fun v1' layerID' parentID' h' hc hc' =>
    ((hcommits h).mpr hc).inj ((hcommits h').mpr hc')⟩

/-- Texts that are the objects themselves. -/
def plainJson : Json (Members Unit) Unit where
  parse := some
  print := id
  parse_print _ := rfl
  integer _ := none
  number _ := ()
  rest _ := some []
  rest_names _ _ h := by
    cases h
    exact nofun

/-- An image of a version that is not read into `Image`. -/
def recent : Members Unit := [("docker_version".toList, .string "1.9.0".toList)]

/-- The same with a `parent_id`. -/
def carrier : Members Unit := recent ++ [("parent_id".toList, .string "sha256:bb".toList)]

theorem makeImageConfig_commits_recent :
    ∃ out, makeImageConfig plainJson recent (text "sha256:aa") [] = .ok out ∧
      (Commits plainJson (text "sha256:aa") [] out ↔
        Committable plainJson recent (text "sha256:aa") []) := by
  have hbase : baseObject plainJson recent = some recent := by decide +kernel
  have hlayer : validate (text "sha256:aa") = .ok () := by decide +kernel
  have hconfig := makeImageConfig_eq hbase hlayer (.inl rfl)
  exact ⟨_, hconfig, (makeImageConfig_commits_iff plainJson hconfig).1⟩

/-- Without a parent, a `parent_id` stays; and a digest that is not UTF-8 is not what is written. -/
theorem makeImageConfig_uncommitted :
    (∃ out, makeImageConfig plainJson carrier (text "sha256:aa") [] = .ok out ∧
      ¬ Commits plainJson (text "sha256:aa") [] out) ∧
    ∃ out, makeImageConfig plainJson recent (text "tarsum+a:0" ++ [0xFF]) [] = .ok out ∧
      ¬ Commits plainJson (text "tarsum+a:0" ++ [0xFF]) [] out := by
  constructor
  · have hbase : baseObject plainJson carrier = some carrier := by decide +kernel
    refine ⟨_, makeImageConfig_eq hbase (by decide +kernel) (.inl rfl), fun h => ?_⟩
    have hnone := (commits_iff.mp h).2.2.resolve_left (fun h => h rfl)
    exact absurd hnone (by decide +kernel)
  · have hbase : baseObject plainJson recent = some recent := by decide +kernel
    refine ⟨_, makeImageConfig_eq hbase (by decide +kernel) (.inl rfl), fun h => ?_⟩
    have hbad : decode [0xFF] = none := by decide +kernel
    have htext : text "tarsum+a:0" = encodeText "tarsum+a:0".toList := by decide
    have hutf8 := (commits_iff.mp h).1
    rw [isUtf8, htext, decodeText_append, decodeText, runes_bad hbad] at hutf8
    cases hutf8

end DockerEngine.Images.MakeConfig
