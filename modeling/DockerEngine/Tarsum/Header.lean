import DockerEngine.Lib.GoMap
import DockerEngine.Lib.Numerals
import DockerEngine.Lib.Words

/-!
# What a tarsum says about a header

The headers of `pkg/tarsum/versioning.go` that are hashed with a file, and `tarSum.encodeHeader`: labels and
values are written one after the other with nothing between them. A user name that contains the label
`gname` can be read as a shorter user name and a longer group name.

`encodeHeader_identifies_iff` says which headers can be read in one way only: those where no label of a text
field stands in a neighbouring text, and where neither the name nor the target of a link contains a whole
run of the fields from `mode` to `linkname`.
-/

namespace DockerEngine.Tarsum

open Bytes Words List

/-- `Version`. -/
inductive Version where
  | version0
  | version1
  | versionDev
  deriving DecidableEq, Repr

/-- `Version.String`. -/
def Version.string : Version → Bytes
  | version0 => text "tarsum"
  | version1 => text "tarsum.v1"
  | versionDev => text "tarsum.dev"

/-- `tar.Header`. -/
structure Header where
  name : Bytes
  mode : Int64
  uid : Int64
  gid : Int64
  size : Int64
  /-- `ModTime.UTC().Unix()`. -/
  modTime : Int64
  typeflag : UInt8
  linkname : Bytes
  uname : Bytes
  gname : Bytes
  devmajor : Int64
  devminor : Int64
  xattrs : GoMap Bytes Bytes

/-- `v0TarHeaderSelect`. -/
def v0TarHeaderSelect (h : Header) : List (Bytes × Bytes) :=
  [(text "name", h.name),
   (text "mode", itoa h.mode),
   (text "uid", itoa h.uid),
   (text "gid", itoa h.gid),
   (text "size", itoa h.size),
   (text "mtime", itoa h.modTime),
   (text "typeflag", [h.typeflag]),
   (text "linkname", h.linkname),
   (text "uname", h.uname),
   (text "gname", h.gname),
   (text "devmajor", itoa h.devmajor),
   (text "devminor", itoa h.devminor)]

/-- `v1TarHeaderSelect`. The slice of keys is made with its length and then appended to, so that there is
an empty key for every attribute. -/
def v1TarHeaderSelect (h : Header) : List (Bytes × Bytes) :=
  let xAttrKeys := (replicate h.xattrs.size [] ++ h.xattrs.keys).insertionSort (· ≤ ·)
  let v0headers := v0TarHeaderSelect h
  v0headers.take 5 ++ v0headers.drop 6 ++ xAttrKeys.map fun k => (k, (h.xattrs.get k).getD [])

/-- `registeredHeaderSelectors`. -/
def selectHeaders : Version → Header → List (Bytes × Bytes)
  | .version0 => v0TarHeaderSelect
  | .version1 => v1TarHeaderSelect
  | .versionDev => v1TarHeaderSelect

/-- The bytes that `encodeHeader` writes to the hash. -/
def encodeHeader (v : Version) (h : Header) : Bytes := (selectHeaders v h).flatMap fun elem => elem.1 ++ elem.2

/-- The sum of one file: the hash `H` of its header and its content, in hexadecimal digits. -/
def fileSum (H : Bytes → Bytes) (v : Version) (h : Header) (content : Bytes) : Bytes :=
  hexEncode (H (encodeHeader v h ++ content))

/-! ## The parts of an encoded header -/

/-- The fields from `mode` to `linkname`, without the target of the link. -/
structure Fields where
  mode : Int64
  uid : Int64
  gid : Int64
  size : Int64
  typeflag : UInt8
  deriving DecidableEq

def Header.fields (h : Header) : Fields := ⟨h.mode, h.uid, h.gid, h.size, h.typeflag⟩

/-- The fields between two texts, with the labels around them. -/
def Fields.block (f : Fields) : Bytes :=
  text "mode" ++ (itoa f.mode ++ (text "uid" ++ (itoa f.uid ++ (text "gid" ++ (itoa f.gid ++
    (text "size" ++ (itoa f.size ++ (text "typeflag" ++ (f.typeflag :: text "linkname")))))))))

/-- What stands before the device numbers. -/
def Header.front (h : Header) : Bytes :=
  h.name ++ (h.fields.block ++ (h.linkname ++ (text "uname" ++ (h.uname ++ (text "gname" ++ h.gname)))))

variable {h : Header}

theorem encodeHeader_eq (hx : h.xattrs.entries = []) : encodeHeader .version1 h =
    text "name" ++ (h.front ++ (text "devmajor" ++ (itoa h.devmajor ++ (text "devminor" ++ itoa h.devminor)))) := by
  simp [encodeHeader, selectHeaders, v1TarHeaderSelect, v0TarHeaderSelect, GoMap.size, GoMap.keys, hx,
    Header.front, Fields.block, Header.fields]

/-- A numeral ends where a label begins. -/
theorem itoa_label {m m' : Int64} {w r r' : Bytes} (hw : ∃ c ∈ w.head?, isNumeral c = false)
    (h : itoa m ++ (w ++ r) = itoa m' ++ (w ++ r')) : m = m' ∧ r = r' := by
  obtain ⟨c, hc, hnum⟩ := hw
  obtain ⟨t, rfl⟩ := head?_eq_some_iff.mp hc
  obtain ⟨hm, hr⟩ := span_unique (isNumeral_itoa m) (isNumeral_itoa m') hnum hnum h
  exact ⟨itoa_inj hm, append_cancel_left (cons.inj hr).2⟩

/-- The last numeral begins where a label ends. -/
theorem label_itoa {m m' : Int64} {w r r' : Bytes} (hw : ∃ c ∈ w.getLast?, isNumeral c = false)
    (h : r ++ (w ++ itoa m) = r' ++ (w ++ itoa m')) : r = r' ∧ m = m' := by
  obtain ⟨c, hc, hnum⟩ := hw
  obtain ⟨t, rfl⟩ := getLast?_eq_some_iff.mp hc
  simp only [append_assoc, singleton_append] at h
  rw [← append_assoc, ← append_assoc] at h
  obtain ⟨hr, -, hm⟩ := last_span_unique (isNumeral_itoa m) (isNumeral_itoa m') hnum hnum h
  exact ⟨append_cancel_right hr, itoa_inj hm⟩

variable {h h' : Header}

/-- The device numbers can be read from the end. -/
theorem front_unique (hx : h.xattrs.entries = []) (hx' : h'.xattrs.entries = [])
    (heq : encodeHeader .version1 h = encodeHeader .version1 h') :
    h.front = h'.front ∧ h.devmajor = h'.devmajor ∧ h.devminor = h'.devminor := by
  rw [encodeHeader_eq hx, encodeHeader_eq hx'] at heq
  have hrest := append_cancel_left heq
  simp only [← append_assoc] at hrest
  rw [append_assoc, append_assoc (_ ++ itoa h'.devmajor)] at hrest
  obtain ⟨hrest, hminor⟩ := label_itoa ⟨ch 'r', rfl, rfl⟩ hrest
  rw [append_assoc, append_assoc h'.front] at hrest
  obtain ⟨hfront, hmajor⟩ := label_itoa ⟨ch 'r', rfl, rfl⟩ hrest
  exact ⟨hfront, hmajor, hminor⟩

/-- From where the fields begin they can be read in one way. -/
theorem block_unique {f f' : Fields} {r r' : Bytes} (h : f.block ++ r = f'.block ++ r') : f = f' ∧ r = r' := by
  simp only [Fields.block, append_assoc, cons_append] at h
  obtain ⟨hmode, h⟩ := itoa_label ⟨ch 'u', rfl, rfl⟩ (append_cancel_left h)
  obtain ⟨huid, h⟩ := itoa_label ⟨ch 'g', rfl, rfl⟩ h
  obtain ⟨hgid, h⟩ := itoa_label ⟨ch 's', rfl, rfl⟩ h
  obtain ⟨hsize, h⟩ := itoa_label ⟨ch 't', rfl, rfl⟩ h
  obtain ⟨htype, h⟩ := cons.inj h
  refine ⟨?_, append_cancel_left h⟩
  cases f
  cases f'
  simp_all

/-! ## Where the fields can begin -/

/-- Every `m` is followed by another letter than `o`. -/
def clear : Bytes → Bool
  | [] => true
  | b :: s => (b != ch 'm' || s.head?.any (· != ch 'o')) && clear s

theorem clear_append {x y : Bytes} (hx : ch 'm' ∉ x) : clear (x ++ y) = clear y := by
  induction x with
  | nil => rfl
  | cons b x ih =>
    rw [mem_cons, not_or] at hx
    rw [cons_append, clear, ih hx.2, bne_iff_ne.mpr (Ne.symm hx.1), Bool.true_or, Bool.true_and]

theorem clear_suffix {d e : Bytes} (h : clear (d ++ e)) : clear e := by
  induction d with
  | nil => exact h
  | cons b d ih =>
    rw [cons_append, clear, Bool.and_eq_true] at h
    exact ih h.2

theorem not_starts_of_clear {e : Bytes} (h : clear e) (he : e ≠ []) : ¬ e <+: text "mo" ∧ ¬ text "mo" <+: e := by
  cases e with
  | nil => exact absurd rfl he
  | cons b e =>
    rw [clear, Bool.and_eq_true, Bool.or_eq_true, bne_iff_ne] at h
    have hmo : text "mo" = [ch 'm', ch 'o'] := rfl
    rw [hmo, cons_prefix_cons, cons_prefix_cons]
    obtain hb | ho := h.1
    · exact ⟨fun hpre => hb hpre.1, fun hpre => hb hpre.1.symm⟩
    · cases e with
      | nil => cases ho
      | cons c e =>
        have hc : c ≠ ch 'o' := by simpa using ho
        rw [cons_prefix_cons, cons_prefix_cons]
        exact ⟨fun hpre => hc hpre.2.1, fun hpre => hc hpre.2.1.symm⟩

theorem clear_block (f : Fields) : ∃ t, f.block = ch 'm' :: t ∧ clear t := by
  refine ⟨text "ode" ++ (itoa f.mode ++ (text "uid" ++ (itoa f.uid ++ (text "gid" ++ (itoa f.gid ++
    (text "size" ++ (itoa f.size ++ (text "typeflag" ++ (f.typeflag :: text "linkname"))))))))), rfl, ?_⟩
  have hitoa : ∀ n : Int64, ch 'm' ∉ itoa n := by
    intro n hmem
    have hnum := isNumeral_itoa n _ hmem
    revert hnum
    decide
  rw [clear_append (by decide), clear_append (hitoa _), clear_append (by decide), clear_append (hitoa _),
    clear_append (by decide), clear_append (hitoa _), clear_append (by decide), clear_append (hitoa _),
    clear_append (by decide), clear, Bool.and_eq_true, Bool.or_eq_true]
  exact ⟨.inr rfl, rfl⟩

/-- Fields do not begin inside fields. -/
theorem block_noStart (f f' : Fields) : NoStart f.block f'.block := by
  intro d e h hd he
  obtain ⟨t, ht, hclear⟩ := clear_block f
  have hmo : text "mo" <+: f'.block := ⟨_, rfl⟩
  have hno : ¬ e <+: text "mo" ∧ ¬ text "mo" <+: e := by
    cases d with
    | nil => exact absurd rfl hd
    | cons b d =>
      rw [ht] at h
      rw [(cons.inj h).2] at hclear
      exact not_starts_of_clear (clear_suffix hclear) he
  exact ⟨fun hpre => (List.prefix_or_prefix_of_prefix hpre hmo).elim hno.1 hno.2, fun hpre => hno.2 (hmo.trans hpre)⟩

/-! ## The headers that can be read in one way -/

/-- The headers agree in everything that is covered. -/
def Agree (h h' : Header) : Prop :=
  h.name = h'.name ∧ h.mode = h'.mode ∧ h.uid = h'.uid ∧ h.gid = h'.gid ∧ h.size = h'.size ∧
    h.typeflag = h'.typeflag ∧ h.linkname = h'.linkname ∧ h.uname = h'.uname ∧ h.gname = h'.gname ∧
      h.devmajor = h'.devmajor ∧ h.devminor = h'.devminor

/-- No text of the header contains a label that could be taken for the one that ends or begins it. -/
structure Plain (h : Header) : Prop where
  name : ∀ f : Fields, ¬ f.block <:+: h.name
  linkname : ∀ f : Fields, ¬ f.block <:+: h.linkname
  linkname_uname : ¬ text "uname" <:+: h.linkname
  uname_uname : ¬ text "uname" <:+: h.uname
  uname_gname : ¬ text "gname" <:+: h.uname
  gname_gname : ¬ text "gname" <:+: h.gname

theorem infix_of_eq {x w y s : Bytes} (h : s = x ++ (w ++ y)) : w <:+: s :=
  ⟨x, y, by rw [h, append_assoc]⟩

/-- Behind the label `uname` there is no other one with a label `gname` behind it. -/
theorem Plain.no_uname (hp : Plain h) {c u g : Bytes} :
    h.uname ++ (text "gname" ++ h.gname) ≠ c ++ (text "uname" ++ (u ++ (text "gname" ++ g))) := by
  intro heq
  obtain ⟨-, hlabel⟩ | ⟨c', -, hg⟩ | ⟨c', hu, -⟩ := append_word_cases (by decide) (by decide) heq
  · exact absurd (cons.inj hlabel).1 (by decide)
  · refine hp.gname_gname (infix_of_eq (x := c' ++ (text "uname" ++ u)) (y := g) ?_)
    simpa using hg
  · exact hp.uname_uname (infix_of_eq hu)

theorem Plain.front_unique (hp : Plain h) (heq : h.front = h'.front) :
    h.name = h'.name ∧ h.fields = h'.fields ∧ h.linkname = h'.linkname ∧ h.uname = h'.uname ∧
      h.gname = h'.gname := by
  unfold Header.front at heq
  obtain ⟨hname, hrest⟩ | ⟨c, -, hrest⟩ | ⟨c, hname, -⟩ :=
    append_word_cases (block_noStart _ _) (block_noStart _ _) heq
  · obtain ⟨hfields, hrest⟩ := block_unique hrest
    obtain ⟨hlink, hrest⟩ | ⟨c, -, hrest⟩ | ⟨c, hlink, -⟩ := append_word_cases (by decide) (by decide) hrest
    · obtain ⟨huname, hrest⟩ | ⟨c, -, hgname⟩ | ⟨c, huname, -⟩ :=
        append_word_cases (by decide) (by decide) (append_cancel_left hrest)
      · exact ⟨hname, hfields, hlink, huname, append_cancel_left hrest⟩
      · exact absurd (infix_of_eq hgname) hp.gname_gname
      · exact absurd (infix_of_eq huname) hp.uname_gname
    · exact absurd hrest hp.no_uname
    · exact absurd (infix_of_eq hlink) hp.linkname_uname
  · -- the fields of the other header are behind those of this one
    have hrest' : h.linkname ++ (text "uname" ++ (h.uname ++ (text "gname" ++ h.gname))) =
        (c ++ (h'.fields.block ++ h'.linkname)) ++ (text "uname" ++ (h'.uname ++ (text "gname" ++ h'.gname))) := by
      simpa using hrest
    obtain ⟨hlink, -⟩ | ⟨c', -, hrest⟩ | ⟨c', hlink, -⟩ := append_word_cases (by decide) (by decide) hrest'
    · exact absurd (infix_of_eq hlink) (hp.linkname _)
    · exact absurd hrest hp.no_uname
    · exact absurd (infix_of_eq hlink) hp.linkname_uname
  · exact absurd (infix_of_eq hname) (hp.name _)

theorem Plain.agree (hp : Plain h) (hx : h.xattrs.entries = []) (hx' : h'.xattrs.entries = [])
    (heq : encodeHeader .version1 h = encodeHeader .version1 h') : Agree h h' := by
  obtain ⟨hfront, hmajor, hminor⟩ := Tarsum.front_unique hx hx' heq
  obtain ⟨hname, hfields, hlink, huname, hgname⟩ := hp.front_unique hfront
  obtain ⟨hmode, huid, hgid, hsize, htype⟩ := Fields.mk.inj hfields
  exact ⟨hname, hmode, huid, hgid, hsize, htype, hlink, huname, hgname, hmajor, hminor⟩

/-- A header with other texts and fields. -/
def Header.reread (h : Header) (name : Bytes) (f : Fields) (linkname uname gname : Bytes) : Header :=
  { h with
    name := name, mode := f.mode, uid := f.uid, gid := f.gid, size := f.size, typeflag := f.typeflag,
    linkname := linkname, uname := uname, gname := gname }

/-- The text can be moved over every label that stands in a neighbouring text. -/
theorem plain_of_agree (hx : h.xattrs.entries = [])
    (hall : ∀ h' : Header, h'.xattrs.entries = [] →
      encodeHeader .version1 h = encodeHeader .version1 h' → Agree h h') : Plain h := by
  have hread : ∀ (name : Bytes) (f : Fields) (linkname uname gname : Bytes),
      name ++ (f.block ++ (linkname ++ (text "uname" ++ (uname ++ (text "gname" ++ gname))))) = h.front →
        h.name = name ∧ h.linkname = linkname ∧ h.uname = uname ∧ h.gname = gname := by
    intro name f linkname uname gname hfront
    have hx' : (h.reread name f linkname uname gname).xattrs.entries = [] := hx
    have hsame : encodeHeader .version1 h = encodeHeader .version1 (h.reread name f linkname uname gname) := by
      rw [encodeHeader_eq hx, encodeHeader_eq hx', ← hfront]
      rfl
    have hagree := hall _ hx' hsame
    obtain ⟨hn, -, -, -, -, -, hl, hu, hg, -⟩ := hagree
    exact ⟨hn, hl, hu, hg⟩
  -- a text is longer than what is before or behind a word in it
  have hlong : ∀ {x w y s : Bytes}, x ++ w ++ y = s → w ≠ [] → s ≠ x ∧ s ≠ y := by
    rintro x w y s rfl hw
    exact ⟨by simp [hw], by simp [append_left_eq_self, -append_assoc, hw]⟩
  constructor
  · rintro f ⟨x, y, hs⟩
    refine (hlong hs (by simp [Fields.block])).1
      (hread x f (y ++ (h.fields.block ++ h.linkname)) h.uname h.gname ?_).1
    simp [Header.front, ← hs]
  · rintro f ⟨x, y, hs⟩
    refine (hlong hs (by simp [Fields.block])).2
      (hread (h.name ++ (h.fields.block ++ x)) f y h.uname h.gname ?_).2.1
    simp [Header.front, ← hs]
  · rintro ⟨x, y, hs⟩
    refine (hlong hs (by decide)).1
      (hread h.name h.fields x (y ++ (text "uname" ++ h.uname)) h.gname ?_).2.1
    simp [Header.front, ← hs]
  · rintro ⟨x, y, hs⟩
    refine (hlong hs (by decide)).2
      (hread h.name h.fields (h.linkname ++ (text "uname" ++ x)) y h.gname ?_).2.2.1
    simp [Header.front, ← hs]
  · rintro ⟨x, y, hs⟩
    refine (hlong hs (by decide)).1
      (hread h.name h.fields h.linkname x (y ++ (text "gname" ++ h.gname)) ?_).2.2.1
    simp [Header.front, ← hs]
  · rintro ⟨x, y, hs⟩
    refine (hlong hs (by decide)).2
      (hread h.name h.fields h.linkname (h.uname ++ (text "gname" ++ x)) y ?_).2.2.2
    simp [Header.front, ← hs]

/-- A header is told from every other one, by what is hashed and by the sum of the file, exactly when none
of its texts contains a label that could be taken for another field. -/
theorem encodeHeader_identifies_iff (H : Bytes → Bytes) (hH : Function.Injective H) (h : Header)
    (hx : h.xattrs.entries = []) :
    (∀ h' : Header, h'.xattrs.entries = [] →
      (encodeHeader .version1 h = encodeHeader .version1 h' → Agree h h') ∧
      ∀ content, h.size = h'.size → ¬ Agree h h' →
        fileSum H .version1 h content ≠ fileSum H .version1 h' content) ↔ Plain h := by
  refine ⟨fun hall => plain_of_agree hx fun h' hx' => (hall h' hx').1, fun hp h' hx' => ⟨hp.agree hx hx', ?_⟩⟩
  exact fun content _ hne heq => hne (hp.agree hx hx' (append_cancel_right (hH (hexEncode_inj heq))))

/-! ### Two owners with one encoding -/

/-- An empty file of a user and a group. -/
def owned (uname gname : Bytes) : Header :=
  ⟨text "f", 420, 0, 0, 0, 0, ch '0', [], uname, gname, 0, 0, .empty⟩

theorem owned_plain : Plain (owned (text "root") (text "root")) := by
  have hshort : ∀ (f : Fields) (s : Bytes), s.length < 4 → ¬ f.block <:+: s := by
    intro f s hlen hin
    have := hin.length_le
    simp only [Fields.block, length_append] at this
    have hmode : (text "mode").length = 4 := rfl
    omega
  exact ⟨fun f => hshort f _ (by decide), fun f => hshort f _ (by decide), by decide, by decide, by decide,
    by decide⟩

theorem encodeHeader_identifies_root :
    fileSum id .version1 (owned (text "root") (text "root")) [] ≠
      fileSum id .version1 (owned (text "root") (text "wheel")) [] := by
  have hall := (encodeHeader_identifies_iff id Function.injective_id (owned (text "root") (text "root"))
    rfl).mpr owned_plain
  refine (hall (owned (text "root") (text "wheel")) rfl).2 [] rfl fun hagree => ?_
  have hgname : text "root" = text "wheel" := hagree.2.2.2.2.2.2.2.2.1
  revert hgname
  decide

theorem encodeHeader_ambiguous :
    encodeHeader .version1 (owned (text "a") (text "bgnamec")) =
      encodeHeader .version1 (owned (text "agnameb") (text "c")) ∧
    ¬ Agree (owned (text "a") (text "bgnamec")) (owned (text "agnameb") (text "c")) := by
  refine ⟨by decide +kernel, fun hagree => ?_⟩
  have huname : text "a" = text "agnameb" := hagree.2.2.2.2.2.2.2.1
  revert huname
  decide

end DockerEngine.Tarsum
